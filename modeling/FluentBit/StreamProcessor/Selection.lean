import FluentBit.Foundation.PackerProperties
import FluentBit.StreamProcessor.KeyLookup

/-! The records that a query without aggregation gives, after `sp_process_data` of
`src/stream_processor/flb_sp.c`: the head of the map is packed for the size of the incoming record,
and set afterwards to the number of entries that were packed. -/

set_option autoImplicit false

namespace FluentBit.StreamProcessor.Selection

open List Nat
open Msgpack
open RecordAccessor (Name sdsEq sdsEq_iff)
open KeyLookup (Selector)

/-- `FLB_SP_NOW` and `FLB_SP_UNIX_TIMESTAMP` -/
inductive TimeFunc where
  | now
  | unixTimestamp

/-- `FLB_SP_RECORD_TAG` and `FLB_SP_RECORD_TIME` -/
inductive RecordFunc where
  | recordTag
  | recordTime

/-- `struct flb_sp_cmd_key`, of a key that does not aggregate. Without a name it is a wildcard. -/
structure CmdKey where
  timeFunc : Option TimeFunc := none
  recordFunc : Option RecordFunc := none
  name : Option Name := none
  keyAlias : Option Bytes := none
  subkeys : List Name := []

/-- What the functions of a query give: the local time as `strftime` writes it, `time`, the tag,
and the time of the record as a double. -/
structure Context where
  now : Bytes
  unixTimestamp : BitVec 64
  tag : Bytes
  tms : BitVec 64

abbrev Piece : Type := Object × Option Object

def packKey (key : CmdKey) (name : String) : Object := .str (key.keyAlias.getD name.toUTF8.toList)

def funcTime (context : Context) (key : CmdKey) : TimeFunc → Piece
  | .now => (packKey key "NOW()", some (.str context.now))
  | .unixTimestamp => (packKey key "UNIX_TIMESTAMP()", some (.positive context.unixTimestamp))

def funcRecord (context : Context) (key : CmdKey) : RecordFunc → Piece
  | .recordTag => (packKey key "RECORD_TAG()", some (.str context.tag))
  | .recordTime => (packKey key "RECORD_TIME()", some (.float64 context.tms))

def lookupKey (seems : Object → Bytes → Bool) (map : List (Object × Object)) (key : CmdKey) :
    List (Object × Object) → List Piece
  | [] => []
  | (.str text, val) :: rest =>
    match key.name with
    | none => (.str text, some val) :: lookupKey seems map key rest
    | some name =>
      if sdsEq name.text text then
        (key.keyAlias.elim (.str text) .str, (Selector.value seems ⟨name, key.subkeys⟩ map).map KeyLookup.Value.o) ::
          lookupKey seems map key rest
      else lookupKey seems map key rest
  | _ :: rest => lookupKey seems map key rest

def processKey (seems : Object → Bytes → Bool) (context : Context) (map : List (Object × Object)) (key : CmdKey) :
    List Piece :=
  match key.timeFunc, key.recordFunc with
  | some timeFunc, _ => [funcTime context key timeFunc]
  | none, some recordFunc => [funcRecord context key recordFunc]
  | none, none => lookupKey seems map key map

def packPiece (piece : Piece) : Bytes := pack piece.1 ++ (piece.2.map pack).getD []

def overwrite (bytes : Bytes) (off : Nat) (data : Bytes) : Bytes :=
  bytes.take off ++ data ++ bytes.drop (off + data.length)

def adjust (sbuf : Bytes) (mapOff : Nat) (mapEntries : Nat) : Bytes :=
  match sbuf[mapOff]? with
  | none => sbuf
  | some h =>
    if h >>> 4 = 0x8 then overwrite sbuf mapOff [(0x8 : UInt8) <<< 4 ||| UInt8.ofNat mapEntries]
    else if h = 0xde then overwrite sbuf (mapOff + 1) (store 2 mapEntries)
    else if h = 0xdf then overwrite sbuf (mapOff + 1) (store 4 mapEntries)
    else sbuf

/-- The loop of `sp_process_data`, for one record that meets the condition. -/
def processRecord (seems : Object → Bytes → Bool) (context : Context) (keys : List CmdKey) (sbuf : Bytes)
    (time : Object) (map : List (Object × Object)) : Bytes :=
  let noData := sbuf.length
  let sbuf := sbuf ++ packArray 2 ++ pack time
  let mapOff := sbuf.length
  let pieces := keys.flatMap (processKey seems context map)
  let sbuf := sbuf ++ packMap map.length ++ pieces.flatMap packPiece
  let mapEntries := pieces.length
  if mapEntries = 0 then sbuf.take noData else adjust sbuf mapOff mapEntries

def adjustedHead (size count : Nat) : Bytes :=
  if size < 16 then [0x80 ||| UInt8.ofNat count]
  else if size < 65536 then 0xde :: store 2 count
  else 0xdf :: store 4 count

def output (seems : Object → Bytes → Bool) (context : Context) (keys : List CmdKey) (time : Object)
    (map : List (Object × Object)) : Bytes :=
  let pieces := keys.flatMap (processKey seems context map)
  if pieces = [] then []
  else packArray 2 ++ (pack time ++ (adjustedHead map.length pieces.length ++ pieces.flatMap packPiece))

theorem overwrite_append (before old data after : Bytes) (same : old.length = data.length) :
    overwrite (before ++ (old ++ after)) before.length data = before ++ (data ++ after) := by
  unfold overwrite
  rw [take_left, ← drop_drop, drop_left, ← same, drop_left, append_assoc]

theorem adjust_packMap (before after : Bytes) (size count : Nat) :
    adjust (before ++ (packMap size ++ after)) before.length count = before ++ (adjustedHead size count ++ after) := by
  unfold adjustedHead packMap adjust
  by_cases small : size < 16
  · have high : UInt8.ofNat (0x80 + size) >>> 4 = 0x8 := by
      have each : ∀ size : Fin 16, UInt8.ofNat (0x80 + size) >>> 4 = 0x8 := by decide
      exact each ⟨size, small⟩
    have first : (before ++ (UInt8.ofNat (0x80 + size) :: after))[before.length]? = some (UInt8.ofNat (0x80 + size)) := by
      simp
    simp only [if_pos small, cons_append, nil_append, first, high, if_true]
    exact overwrite_append before [UInt8.ofNat (0x80 + size)] _ after rfl
  · by_cases medium : size < 65536
    · have first : (before ++ (0xde :: (store 2 size ++ after)))[before.length]? = some 0xde := by simp
      have low : ¬ (0xde : UInt8) >>> 4 = 0x8 := by decide
      have written := overwrite_append (before ++ [0xde]) (store 2 size) (store 2 count) after (by simp)
      simp only [append_assoc, cons_append, nil_append, length_append, length_cons,
        length_nil, Nat.zero_add] at written
      simp only [if_neg small, if_pos medium, cons_append, first, low, if_false, if_true]
      exact written
    · have first : (before ++ (0xdf :: (store 4 size ++ after)))[before.length]? = some 0xdf := by simp
      have low : ¬ (0xdf : UInt8) >>> 4 = 0x8 := by decide
      have other : ¬ (0xdf : UInt8) = 0xde := by decide
      have written := overwrite_append (before ++ [0xdf]) (store 4 size) (store 4 count) after (by simp)
      simp only [append_assoc, cons_append, nil_append, length_append, length_cons,
        length_nil, Nat.zero_add] at written
      simp only [if_neg small, if_neg medium, cons_append, first, low, other, if_false, if_true]
      exact written

theorem processRecord_eq (seems : Object → Bytes → Bool) (context : Context) (keys : List CmdKey) (sbuf : Bytes)
    (time : Object) (map : List (Object × Object)) :
    processRecord seems context keys sbuf time map = sbuf ++ output seems context keys time map := by
  unfold processRecord output
  generalize keys.flatMap (processKey seems context map) = pieces
  cases pieces with
  | nil => simp
  | cons piece pieces =>
    simp only [length_cons, Nat.add_eq_zero_iff, Nat.one_ne_zero, and_false, if_false, reduceCtorEq]
    rw [append_assoc (sbuf ++ packArray 2 ++ pack time), adjust_packMap]
    simp

def HeadHolds (size count : Nat) : Prop :=
  if size < 16 then count < 16 else if size < 65536 then count < 65536 else count < 2 ^ 32

theorem fixed_store_mod {α : Type} (width number : Nat) (make : Nat → α) (rest : Bytes) :
    fixed width make (store width number ++ rest) = .done (make (number % 256 ^ width)) rest := by
  have read := trail_append (store width number) rest
  rw [length_store] at read
  simp only [fixed, andThen, read, load_store]
  rfl

def isMapHead : Reading Head → Bool
  | .done (.container .map _) _ => true
  | _ => false

theorem mapHead_byte {byte : UInt8} {count : Nat} (high : 0x80 ≤ byte.toNat)
    (read : readHead [byte] = .done (.container .map count) []) : count = byte.toNat % 16 := by
  by_cases low : byte.toNat ≤ 0x8f
  · have head : readHead [byte] = .done (.container .map (byte.toNat % 16)) [] := congrFun (readFrom_map high low) []
    rw [head] at read
    cases read
    rfl
  · have each : ∀ number : Fin 256, 0x8f < number.val → isMapHead (readFrom (UInt8.ofNat number) []) = false := by
      decide +kernel
    have other := each ⟨byte.toNat, byte.toNat_lt⟩ (Nat.not_le.mp low)
    have same : readHead [byte] = readFrom byte [] := rfl
    rw [UInt8.ofNat_toNat, ← same, read] at other
    cases other

theorem adjustedHead_iff (size count : Nat) :
    (∀ rest, readHead (adjustedHead size count ++ rest) = .done (.container .map count) rest) ↔ HeadHolds size count := by
  unfold adjustedHead HeadHolds
  by_cases small : size < 16
  · simp only [if_pos small]
    have byte : ∀ low : Fin 256, (0x80 ||| UInt8.ofNat low).toNat % 16 = low.val % 16 ∧
        0x80 ≤ (0x80 ||| UInt8.ofNat low).toNat ∧ (low.val < 16 → (0x80 ||| UInt8.ofNat low).toNat = 0x80 + low.val) := by
      decide +kernel
    have reduced : UInt8.ofNat count = UInt8.ofNat (count % 256) := by
      rw [← UInt8.toNat_inj, UInt8.toNat_ofNat', UInt8.toNat_ofNat', mod_mod]
    obtain ⟨nibble, high, whole⟩ := byte ⟨count % 256, mod_lt _ (by decide)⟩
    rw [reduced]
    constructor
    · intro read
      have count_eq := mapHead_byte high (read [])
      rw [count_eq]
      exact mod_lt _ (by decide)
    · intro few rest
      have low : count % 256 = count := mod_eq_of_lt (by omega)
      have value := whole (by simp only [low]; exact few)
      simp only [low] at value high ⊢
      have head := congrFun (readFrom_map high (by omega)) rest
      rw [value, show (0x80 + count) % 16 = count by omega] at head
      exact head
  · by_cases medium : size < 65536
    · simp only [if_neg small, if_pos medium]
      have head : ∀ rest, readHead ((0xde :: store 2 count) ++ rest) = .done (.container .map (count % 256 ^ 2)) rest :=
        fun rest => fixed_store_mod 2 count (fun count => Head.container .map count) rest
      constructor
      · intro read
        have both := (head []).symm.trans (read [])
        simp only [Msgpack.Reading.done.injEq, Head.container.injEq, true_and, and_true] at both
        omega
      · intro few rest
        have whole : count % 256 ^ 2 = count := mod_eq_of_lt few
        rw [head, whole]
    · simp only [if_neg small, if_neg medium]
      have head : ∀ rest, readHead ((0xdf :: store 4 count) ++ rest) = .done (.container .map (count % 256 ^ 4)) rest :=
        fun rest => fixed_store_mod 4 count (fun count => Head.container .map count) rest
      constructor
      · intro read
        have both := (head []).symm.trans (read [])
        simp only [Msgpack.Reading.done.injEq, Head.container.injEq, true_and, and_true] at both
        omega
      · intro few rest
        have whole : count % 256 ^ 4 = count := mod_eq_of_lt few
        rw [head, whole]

/-! When the bytes that a query appends for a record are one array of a time stamp and a map. -/

variable {seems : Object → Bytes → Bool} {context : Context}

/-! ### What a command selects -/

def isString : Object → Bool
  | .str _ => true
  | _ => false

def isNamed (name : Name) : Object → Bool
  | .str text => text = name.text
  | _ => false

def CmdKey.count (key : CmdKey) (map : List (Object × Object)) : Nat :=
  if key.timeFunc.isSome ∨ key.recordFunc.isSome then 1
  else
    match key.name with
    | none => map.countP (isString ·.1)
    | some name => map.countP (isNamed name ·.1)

def selectedCount (keys : List CmdKey) (map : List (Object × Object)) : Nat := (keys.map (·.count map)).sum

def CmdKey.Valued (seems : Object → Bytes → Bool) (map : List (Object × Object)) (key : CmdKey) : Prop :=
  key.timeFunc = none → key.recordFunc = none → ∀ name, key.name = some name → map.any (isNamed name ·.1) = true →
    (Selector.value seems ⟨name, key.subkeys⟩ map).isSome = true

theorem isNamed_iff (name : Name) (text : Bytes) : isNamed name (.str text) = sdsEq name.text text := by
  rw [Bool.eq_iff_iff, sdsEq_iff name.noZero]
  simp [isNamed, eq_comm]

theorem lookupKey_length (map entries : List (Object × Object)) (key : CmdKey) :
    (lookupKey seems map key entries).length = match key.name with
      | none => entries.countP (isString ·.1)
      | some name => entries.countP (isNamed name ·.1) := by
  induction entries with
  | nil => cases key.name <;> rfl
  | cons entry rest ih =>
    obtain ⟨first, val⟩ := entry
    cases named : key.name with
    | none =>
      rw [named] at ih
      cases first with
      | str text => simp [lookupKey, named, ih, isString]
      | _ => simp [lookupKey, ih, isString]
    | some name =>
      rw [named] at ih
      cases first with
      | str text =>
        simp only [lookupKey, named, countP_cons, isNamed_iff]
        cases sdsEq name.text text with
        | true => simp [ih]
        | false => simp [ih]
      | _ => simp [lookupKey, ih, isNamed]

theorem processKey_length (map : List (Object × Object)) (key : CmdKey) :
    (processKey seems context map key).length = key.count map := by
  unfold processKey CmdKey.count
  cases key.timeFunc with
  | some timeFunc => rfl
  | none =>
    cases key.recordFunc with
    | some recordFunc => rfl
    | none => exact lookupKey_length map map key

theorem pieces_length (keys : List CmdKey) (map : List (Object × Object)) :
    (keys.flatMap (processKey seems context map)).length = selectedCount keys map := by
  rw [length_flatMap, selectedCount]
  congr 1
  exact map_congr_left fun key _ => processKey_length map key

theorem lookupKey_valued (map entries : List (Object × Object)) (key : CmdKey) :
    (∀ piece ∈ lookupKey seems map key entries, piece.2.isSome = true) ↔
      ∀ name, key.name = some name → entries.any (isNamed name ·.1) = true →
        (Selector.value seems ⟨name, key.subkeys⟩ map).isSome = true := by
  induction entries with
  | nil => simp [lookupKey]
  | cons entry rest ih =>
    obtain ⟨first, val⟩ := entry
    cases first with
    | str text =>
      cases named : key.name with
      | none => simpa [lookupKey, named] using ih
      | some name =>
        simp only [named, Option.some.injEq, forall_eq'] at ih
        simp only [lookupKey, named, Option.some.injEq, forall_eq', any_cons, isNamed_iff]
        cases sdsEq name.text text with
        | true =>
          simp only [if_true, forall_mem_cons, Option.isSome_map, ih, Bool.true_or, true_implies]
          exact and_iff_left_of_imp fun found _ => found
        | false => simpa using ih
    | _ => simpa [lookupKey, isNamed] using ih

theorem pieces_valued (keys : List CmdKey) (map : List (Object × Object)) :
    (∀ piece ∈ keys.flatMap (processKey seems context map), piece.2.isSome = true) ↔
      ∀ key ∈ keys, key.Valued seems map := by
  have each : ∀ key, (∀ piece ∈ processKey seems context map key, piece.2.isSome = true) ↔ key.Valued seems map := by
    intro key
    unfold processKey CmdKey.Valued
    cases key.timeFunc with
    | some timeFunc => cases timeFunc <;> simp [funcTime]
    | none =>
      cases key.recordFunc with
      | some recordFunc => cases recordFunc <;> simp [funcRecord]
      | none => simpa using lookupKey_valued map map key
  simp only [mem_flatMap, forall_exists_index, and_imp]
  constructor
  · intro all key member
    exact (each key).mp fun piece packed => all piece key member packed
  · intro all piece key member packed
    exact (each key).mpr (all key member) piece packed

/-! ### Well-formed records -/

def IsRecord (bytes : Bytes) (time : Object) (pairs : List (Object × Object)) : Prop :=
  ∃ head, (∀ rest, readHead (head ++ rest) = .done (.container .map pairs.length) rest) ∧
    bytes = packArray 2 ++ (pack time ++ (head ++ packEntries pairs))

/-- A record that selects nothing adds no bytes, and another one adds the selected pairs, each of
them with its value. -/
def WellFormed (seems : Object → Bytes → Bool) (context : Context) (keys : List CmdKey) (time : Object)
    (map : List (Object × Object)) : Prop :=
  (selectedCount keys map = 0 ↔ output seems context keys time map = []) ∧
    (selectedCount keys map ≠ 0 →
      ∃ pairs, keys.flatMap (processKey seems context map) = pairs.map (fun pair => (pair.1, some pair.2)) ∧
        IsRecord (output seems context keys time map) time pairs)

def Fits (seems : Object → Bytes → Bool) (keys : List CmdKey) (map : List (Object × Object)) : Prop :=
  (∀ key ∈ keys, key.Valued seems map) ∧ HeadHolds map.length (selectedCount keys map)

theorem exists_pairs {pieces : List Piece} (valued : ∀ piece ∈ pieces, piece.2.isSome = true) :
    ∃ pairs : List (Object × Object), pieces = pairs.map fun pair => (pair.1, some pair.2) := by
  induction pieces with
  | nil => exact ⟨[], rfl⟩
  | cons piece pieces ih =>
    obtain ⟨pairs, same⟩ := ih fun other member => valued other (mem_cons_of_mem _ member)
    obtain ⟨val, found⟩ := Option.isSome_iff_exists.mp (valued piece mem_cons_self)
    exact ⟨(piece.1, val) :: pairs, by rw [map_cons, same, ← found]⟩

theorem packPieces_pairs (pairs : List (Object × Object)) :
    (pairs.map fun pair => ((pair.1, some pair.2) : Piece)).flatMap packPiece = packEntries pairs := by
  rw [packEntries_eq, flatMap_map]
  rfl

theorem headHolds_zero (size : Nat) : HeadHolds size 0 := by
  unfold HeadHolds
  split
  · decide
  · split <;> decide

theorem packArray_ne_nil (count : Nat) (rest : Bytes) : packArray count ++ rest ≠ [] := by
  unfold packArray
  split
  · exact cons_ne_nil _ _
  · split <;> exact cons_ne_nil _ _

theorem fits_iff (keys : List CmdKey) (map : List (Object × Object)) : Fits seems keys map ↔
      (∀ piece ∈ keys.flatMap (processKey seems context map), piece.2.isSome = true) ∧
        HeadHolds map.length (keys.flatMap (processKey seems context map)).length := by
  have count : (keys.flatMap (processKey seems context map)).length = selectedCount keys map := pieces_length keys map
  rw [pieces_valued keys map, count]
  rfl

variable {time : Object} {map : List (Object × Object)} {keys : List CmdKey}

theorem WellFormed.fits (wellFormed : WellFormed seems context keys time map) : Fits seems keys map := by
  have count : (keys.flatMap (processKey seems context map)).length = selectedCount keys map := pieces_length keys map
  rw [fits_iff]
  obtain ⟨-, record⟩ := wellFormed
  by_cases nothing : selectedCount keys map = 0
  · rw [nothing] at count
    rw [count, length_eq_zero_iff.mp count]
    exact ⟨fun _ absent => absurd absent not_mem_nil, headHolds_zero _⟩
  · obtain ⟨pairs, same, head, read, bytes⟩ := record nothing
    have filled : keys.flatMap (processKey seems context map) ≠ [] := by
      intro empty
      rw [empty, length_nil] at count
      exact nothing count.symm
    unfold output at bytes
    rw [if_neg filled] at bytes
    rw [same] at bytes ⊢
    -- the pairs are what was packed, so the heads are the same
    rw [packPieces_pairs] at bytes
    have heads := append_cancel_right (append_cancel_left (append_cancel_left bytes))
    rw [length_map] at heads ⊢
    rw [← heads] at read
    refine ⟨?_, (adjustedHead_iff _ _).mp read⟩
    intro piece packed
    obtain ⟨pair, -, rfl⟩ := mem_map.mp packed
    rfl

theorem Fits.wellFormed (fits : Fits seems keys map) (context : Context) (time : Object) :
    WellFormed seems context keys time map := by
  have count : (keys.flatMap (processKey seems context map)).length = selectedCount keys map := pieces_length keys map
  obtain ⟨each, holds⟩ := (fits_iff keys map).mp fits
  unfold WellFormed output
  rw [← count]
  generalize keys.flatMap (processKey seems context map) = pieces at each holds
  cases pieces with
  | nil => simp
  | cons piece pieces =>
    generalize full : piece :: pieces = all at each holds
    have filled : all ≠ [] := full ▸ cons_ne_nil _ _
    have counted : all.length ≠ 0 := mt length_eq_zero_iff.mp filled
    simp only [if_neg filled, counted, packArray_ne_nil, not_false_eq_true, true_and, ne_eq, true_implies]
    obtain ⟨pairs, rfl⟩ := exists_pairs each
    rw [length_map] at holds
    refine ⟨pairs, rfl, _, (adjustedHead_iff _ _).mpr holds, ?_⟩
    rw [packPieces_pairs, length_map]

/-- The bytes of a record are well formed exactly when every key that the record has finds a value,
and not more entries are selected than the head for the size of the record can count. -/
theorem wellFormed_iff (seems : Object → Bytes → Bool) (context : Context) (keys : List CmdKey) (time : Object)
    (map : List (Object × Object)) : WellFormed seems context keys time map ↔ Fits seems keys map :=
  ⟨WellFormed.fits, fun fits => fits.wellFormed context time⟩

theorem IsRecord.unpack {bytes : Bytes} {pairs : List (Object × Object)} {limit : Nat}
    (isRecord : IsRecord bytes time pairs) (packable : Packable time)
    (each : ∀ pair ∈ pairs, Packable pair.1 ∧ Packable pair.2) (fits : depth (.array [time, .map pairs]) ≤ limit)
    (rest : Bytes) : Msgpack.unpack limit (bytes ++ rest) = .done (.array [time, .map pairs]) rest := by
  obtain ⟨head, read, rfl⟩ := isRecord
  have map : Encodes (head ++ packEntries pairs) (.map pairs) := by
    have members := @Encodes.map head (pairs.map fun pair => ((pack pair.1, pair.1), pack pair.2, pair.2))
      (by rw [length_map]; exact read)
      (by
        intro member inside
        obtain ⟨pair, packed, rfl⟩ := mem_map.mp inside
        exact encodes_pack (each pair packed).1)
      (by
        intro member inside
        obtain ⟨pair, packed, rfl⟩ := mem_map.mp inside
        exact encodes_pack (each pair packed).2)
    rw [flatMap_map, ← packEntries_eq, map_map] at members
    simpa [Function.comp_def] using members
  have array := @Encodes.array (packArray 2) [(pack time, time), (head ++ packEntries pairs, .map pairs)]
    (readHead_array (show 2 < 2 ^ 32 by decide)) (by
      intro member inside
      rcases mem_pair.mp inside with rfl | rfl
      · exact encodes_pack packable
      · exact map)
  have whole := array.unpack fits rest
  simpa using whole

/-- The key `a` of a command. -/
def selectA : CmdKey := { name := some KeyLookup.keyA }

def emptyContext : Context := { now := [], unixTimestamp := 0, tag := [], tms := 0 }

/-- A key without a value for an array, and a head that sixteen times the same key do not fit. -/
theorem record_broken : ¬ WellFormed (fun _ _ => false) emptyContext [selectA] .nil [(.str [97], .array [])] ∧
      ¬ WellFormed (fun _ _ => false) emptyContext (List.replicate 16 selectA) .nil [(.str [97], .nil)] := by
  constructor
  · intro wellFormed
    have valued := wellFormed.fits.1 selectA mem_cons_self rfl rfl KeyLookup.keyA rfl rfl
    exact absurd valued (by decide)
  · intro wellFormed
    have holds := wellFormed.fits.2
    have sixteen : selectedCount (List.replicate 16 selectA) [(.str [97], .nil)] = 16 := by decide
    rw [sixteen] at holds
    have few : 16 < 16 := holds
    exact absurd few (by decide)

end FluentBit.StreamProcessor.Selection
