import FluentBit.RecordAccessor.Lookup

/-! `flb_mp_accessor_keys_remove`, after `src/flb_mp.c`: the patterns that match are collected, and
each entry of the map that one of them starts from is packed again step by step. -/

set_option autoImplicit false

namespace FluentBit.RecordAccessor

open List
open Msgpack

/-- `struct flb_mp_accessor_ra`, for a pattern that starts with a key -/
structure AccessorRa where
  isActive : Bool
  ra : Key

def AccessorRa.subkeyCount (mpRa : AccessorRa) : Nat := mpRa.ra.subkeys.length

def Sorted (raList : List AccessorRa) : Prop := raList.Pairwise fun first second => first.subkeyCount ≤ second.subkeyCount

structure Accessor where
  raList : List AccessorRa
  sorted : Sorted raList

def insertBySubkeyCount (ra : Key) : List AccessorRa → List AccessorRa
  | [] => [{ isActive := true, ra }]
  | valRa :: later =>
    if ra.subkeys.length ≤ valRa.subkeyCount then { isActive := true, ra } :: valRa :: later
    else valRa :: insertBySubkeyCount ra later

variable {raList : List AccessorRa} {ra : Key}

theorem mem_insertBySubkeyCount {mpRa : AccessorRa} (inside : mpRa ∈ insertBySubkeyCount ra raList) :
    mpRa = { isActive := true, ra } ∨ mpRa ∈ raList := by
  induction raList with
  | nil => simpa [insertBySubkeyCount] using inside
  | cons valRa later ih =>
    unfold insertBySubkeyCount at inside
    split at inside
    · simpa using inside
    · rcases mem_cons.mp inside with rfl | further
      · exact .inr (mem_cons_self ..)
      · exact (ih further).imp_right (mem_cons_of_mem _)

theorem insertBySubkeyCount_sorted (sorted : Sorted raList) : Sorted (insertBySubkeyCount ra raList) := by
  induction raList with
  | nil => exact pairwise_singleton _ _
  | cons valRa later ih =>
    obtain ⟨ahead, rest⟩ := pairwise_cons.mp sorted
    unfold insertBySubkeyCount
    split
    next few =>
      refine pairwise_cons.mpr ⟨?_, sorted⟩
      intro other inside
      rcases mem_cons.mp inside with rfl | further
      · exact few
      · exact Nat.le_trans few (ahead other further)
    next many =>
      refine pairwise_cons.mpr ⟨?_, ih rest⟩
      intro other inside
      rcases mem_insertBySubkeyCount inside with rfl | further
      · exact Nat.le_of_lt (Nat.lt_of_not_le many)
      · exact ahead other further

def flbMpAccessorCreate (patterns : List Key) : Accessor :=
  patterns.foldl
    (fun mpa ra => { raList := insertBySubkeyCount ra mpa.raList, sorted := insertBySubkeyCount_sorted mpa.sorted })
    { raList := [], sorted := List.Pairwise.nil }

/-- `flb_mp_map_header_init` and `flb_mp_map_header_end`: the head for 65536 entries, with another number. -/
def mapHeader (entries : Nat) : Bytes := 0xdf :: store 4 entries

/-- `flb_mp_array_header_init` and `flb_mp_array_header_end` -/
def arrayHeader (entries : Nat) : Bytes := 0xdd :: store 4 entries

def counted : Option Bytes → Nat × Bytes → Nat × Bytes
  | none, later => later
  | some bytes, later => (later.1 + 1, bytes ++ later.2)

def packKey : Option Object → Bytes
  | none => []
  | some key => pack key

mutual

/-- `accessor_sub_pack`, or nothing for `FLB_FALSE`. A key is known by the positions that lead to
it, and `NULL` stands for the key of an item; a value is never where a key is. -/
def accessorSubPack (matchKey : Option (List Position)) (key : Option Object) (place : List Position) : Object → Option Bytes
  | .map entries =>
    if matchKey = key.map fun _ => place then none
    else
      let packed := subPackEntries matchKey place 0 entries
      some (packKey key ++ mapHeader packed.1 ++ packed.2)
  | .array items =>
    if matchKey = key.map fun _ => place then none
    else
      let packed := subPackItems matchKey place 0 items
      some (packKey key ++ arrayHeader packed.1 ++ packed.2)
  | val => if matchKey = key.map fun _ => place then none else some (packKey key ++ pack val)

def subPackEntries (matchKey : Option (List Position)) (place : List Position) : Nat → List (Object × Object) → Nat × Bytes
  | _, [] => (0, [])
  | i, (k, v) :: entries =>
    counted (accessorSubPack matchKey (some k) (place ++ [.entry i]) v) (subPackEntries matchKey place (i + 1) entries)

def subPackItems (matchKey : Option (List Position)) (place : List Position) : Nat → List Object → Nat × Bytes
  | _, [] => (0, [])
  | i, v :: items =>
    counted (accessorSubPack matchKey none (place ++ [.item i]) v) (subPackItems matchKey place (i + 1) items)

end

def matchTable (mpa : Accessor) (map : Object) : List KvPair :=
  mpa.raList.filterMap fun mpRa => if mpRa.isActive then flbRaGetKvPair mpRa.ra map else none

/-- `accessor_key_find_match` for the key of an entry of the map -/
def accessorKeyFindMatch (table : List KvPair) (i : Nat) : Option KvPair := table.find? fun pair => pair.startKey == [.entry i]

/-- The loop of `flb_mp_accessor_keys_remove` -/
def removeLoop (table : List KvPair) : Nat → List (Object × Object) → Nat × Bytes
  | _, [] => (0, [])
  | i, (key, val) :: entries =>
    let packed :=
      match accessorKeyFindMatch table i with
      | none => some (pack key ++ pack val)
      | some pair => accessorSubPack pair.outKey (some key) [.entry i] val
    counted packed (removeLoop table (i + 1) entries)

/-- `flb_mp_accessor_keys_remove`: the output with `FLB_TRUE`, or nothing with `FLB_FALSE` -/
def flbMpAccessorKeysRemove (mpa : Accessor) (entries : List (Object × Object)) : Option Bytes :=
  if entries.length = 0 then none
  else
    let table := matchTable mpa (.map entries)
    if table.length = 0 then none
    else
      let packed := removeLoop table 0 entries
      some (mapHeader packed.1 ++ packed.2)

end FluentBit.RecordAccessor
