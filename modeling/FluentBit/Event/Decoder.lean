import FluentBit.Foundation.Binary64
import FluentBit.Foundation.Msgpack

/-! Times of events, after `src/flb_time.c`: the formats they are packed in, and the
readers of MessagePack objects and of bytes. -/

set_option autoImplicit false

namespace FluentBit.Event

open Msgpack (Object Reading load store)

structure Time where
  sec : BitVec 64
  nsec : BitVec 64
deriving DecidableEq

/-- `FLB_TIME_ETFMT_INT`, `FLB_TIME_ETFMT_V0`, `FLB_TIME_ETFMT_V1_EXT` and `FLB_TIME_ETFMT_V1_FIXEXT` -/
inductive TimeFormat where
  | int
  | v0
  | v1Ext
  | v1FixExt
deriving DecidableEq

/-- `flb_time_append_to_msgpack`, for a time that is given. -/
def timeAppendToMsgpack (time : Time) : TimeFormat → Bytes
  | .int => Msgpack.packUnsigned time.sec.toNat
  | .v0 | .v1Ext | .v1FixExt =>
    Msgpack.packExt 8 0 ++ store 4 (time.sec.toNat % 2 ^ 32) ++ store 4 (time.nsec.toNat % 2 ^ 32)

def nanosecondsOf (bits sec : BitVec 64) : BitVec 64 :=
  ((Float.ofBits ⟨bits⟩ - Float.ofInt sec.toInt) * 1000000000).toInt64.toBitVec

def timeOfDouble (bits : BitVec 64) : Time :=
  { sec := Binary64.toInt64 bits, nsec := nanosecondsOf bits (Binary64.toInt64 bits) }

def timeOfBytes (data : Bytes) : Time :=
  { sec := BitVec.ofNat 64 (load (data.take 4)), nsec := BitVec.ofNat 64 (load ((data.drop 4).take 4)) }

def timeMsgpackToTime : Object → Option Time
  | .positive u64 => some { sec := u64, nsec := 0 }
  | .float64 bits => some (timeOfDouble bits)
  | .ext type data => if type ≠ 0 ∨ data.length ≠ 8 then none else some (timeOfBytes data)
  | _ => none

def timePopFromMsgpack : Object → Option Time
  | .array (.array [time, _] :: _) => timeMsgpackToTime time
  | .array (.array _ :: _) => none
  | .array (time :: _) => timeMsgpackToTime time
  | _ => none

/-! ### Bytes -/

inductive Tag where
  | nil
  | bool (value : Bool)
  | int (i : BitVec 64)
  | uint (u : BitVec 64)
  | float (bits : BitVec 32)
  | double (bits : BitVec 64)
  | str (length : Nat)
  | bin (length : Nat)
  | ext (type : UInt8) (length : Nat)
  | array (count : Nat)
  | map (count : Nat)

def Tag.signed (width number : Nat) : Tag := .int ((BitVec.ofNat (8 * width) number).signExtend 64)

def extTag (width : Nat) : Bytes → Reading Tag :=
  Msgpack.andThen (Msgpack.fixed width id) fun length => Msgpack.fixed 1 fun type => .ext (UInt8.ofNat type) length

/-- `mpack_parse_tag` behind the first byte. -/
def tagFrom (byte : UInt8) : Bytes → Reading Tag :=
  if byte ≤ 0x7f then Msgpack.give (.uint (BitVec.ofNat 64 byte.toNat))
  else if byte ≤ 0x8f then Msgpack.give (.map (byte.toNat % 16))
  else if byte ≤ 0x9f then Msgpack.give (.array (byte.toNat % 16))
  else if byte ≤ 0xbf then Msgpack.give (.str (byte.toNat % 32))
  else if byte = 0xc0 then Msgpack.give .nil
  else if byte = 0xc2 then Msgpack.give (.bool false)
  else if byte = 0xc3 then Msgpack.give (.bool true)
  else if byte = 0xc4 then Msgpack.fixed 1 .bin
  else if byte = 0xc5 then Msgpack.fixed 2 .bin
  else if byte = 0xc6 then Msgpack.fixed 4 .bin
  else if byte = 0xc7 then extTag 1
  else if byte = 0xc8 then extTag 2
  else if byte = 0xc9 then extTag 4
  else if byte = 0xca then Msgpack.fixed 4 fun bits => .float (BitVec.ofNat 32 bits)
  else if byte = 0xcb then Msgpack.fixed 8 fun bits => .double (BitVec.ofNat 64 bits)
  else if byte = 0xcc then Msgpack.fixed 1 fun number => .uint (BitVec.ofNat 64 number)
  else if byte = 0xcd then Msgpack.fixed 2 fun number => .uint (BitVec.ofNat 64 number)
  else if byte = 0xce then Msgpack.fixed 4 fun number => .uint (BitVec.ofNat 64 number)
  else if byte = 0xcf then Msgpack.fixed 8 fun number => .uint (BitVec.ofNat 64 number)
  else if byte = 0xd0 then Msgpack.fixed 1 (Tag.signed 1)
  else if byte = 0xd1 then Msgpack.fixed 2 (Tag.signed 2)
  else if byte = 0xd2 then Msgpack.fixed 4 (Tag.signed 4)
  else if byte = 0xd3 then Msgpack.fixed 8 (Tag.signed 8)
  else if byte = 0xd4 then Msgpack.fixed 1 fun type => .ext (UInt8.ofNat type) 1
  else if byte = 0xd5 then Msgpack.fixed 1 fun type => .ext (UInt8.ofNat type) 2
  else if byte = 0xd6 then Msgpack.fixed 1 fun type => .ext (UInt8.ofNat type) 4
  else if byte = 0xd7 then Msgpack.fixed 1 fun type => .ext (UInt8.ofNat type) 8
  else if byte = 0xd8 then Msgpack.fixed 1 fun type => .ext (UInt8.ofNat type) 16
  else if byte = 0xd9 then Msgpack.fixed 1 .str
  else if byte = 0xda then Msgpack.fixed 2 .str
  else if byte = 0xdb then Msgpack.fixed 4 .str
  else if byte = 0xdc then Msgpack.fixed 2 .array
  else if byte = 0xdd then Msgpack.fixed 4 .array
  else if byte = 0xde then Msgpack.fixed 2 .map
  else if byte = 0xdf then Msgpack.fixed 4 .map
  else if 0xe0 ≤ byte then Msgpack.give (Tag.signed 1 byte.toNat)
  else Msgpack.refuse

/-- `mpack_read_tag`; nothing is an error of the reader. -/
def readTag : Bytes → Option (Tag × Bytes)
  | [] => none
  | byte :: rest =>
    match tagFrom byte rest with
    | .done tag rest => some (tag, rest)
    | _ => none

/-- `mpack_read_bytes`: bytes that are missing are zero. -/
def readBytes (count : Nat) (bytes : Bytes) : Bytes × Bytes :=
  if bytes.length < count then (List.replicate count 0, []) else (bytes.take count, bytes.drop count)

def timeOfTag (tag : Tag) (bytes : Bytes) : Option (Time × Bytes) :=
  match tag with
  | .int i => if i.toInt < 0 then none else some ({ sec := i, nsec := 0 }, bytes)
  | .uint u => some ({ sec := u, nsec := 0 }, bytes)
  | .float bits => some (timeOfDouble (bits.setWidth 64), bytes)
  | .double bits => some (timeOfDouble bits, bytes)
  | .ext _ length =>
    if length ≠ 8 then none
    else
      let (data, rest) := readBytes length bytes
      some (timeOfBytes data, rest)
  | _ => none

/-- `flb_time_pop_from_mpack`, with the bytes left for the reader. `discard` is `mpack_discard`. -/
def timePopFromMpack (discard : Bytes → Bytes) (bytes : Bytes) : Option (Time × Bytes) :=
  match readTag bytes with
  | some (.array count, bytes) =>
    if count = 0 then none
    else
      match readTag bytes with
      | none => none
      | some (.array count, bytes) =>
        if count ≠ 2 then none
        else
          match readTag bytes with
          | none => none
          | some (tag, bytes) => (timeOfTag tag bytes).map fun (time, bytes) => (time, discard bytes)
      | some (tag, bytes) => timeOfTag tag bytes
  | _ => none

/-! The reader of log events, after `src/flb_log_event_decoder.c`, and the check of a chunk
of them, after `flb_mp_validate_log_chunk` in `src/flb_mp.c`. -/

open Msgpack (Object Reading load)

def embedStackSize : Nat := 32

inductive Unpacked where
  | success (data : Object)
  | more
  | parseError

/-- `msgpack_unpack_next`, with the offset it leaves. -/
def unpackNext (data : Bytes) (off : Nat) : Unpacked × Nat :=
  if data.length ≤ off then (.more, off)
  else
    match Msgpack.unpack embedStackSize (data.drop off) with
    | .done object rest => (.success object, data.length - rest.length)
    | .short rest => (.more, data.length - rest.length)
    | .bad => (.parseError, off)

theorem unpackNext_append (before bytes : Bytes) (nonempty : bytes ≠ []) {object : Object} {rest : Bytes}
    (unpacked : Msgpack.unpack embedStackSize bytes = .done object rest) :
    unpackNext (before ++ bytes) before.length = (.success object, (before ++ bytes).length - rest.length) := by
  have inside : ¬ (before ++ bytes).length ≤ before.length := by
    have := List.length_pos_iff.mpr nonempty
    rw [List.length_append]
    omega
  simp only [unpackNext, inside, if_false, List.drop_left, unpacked]

/-- `FLB_EVENT_DECODER_SUCCESS` and the errors. -/
inductive Result where
  | success
  | wrongRootType
  | wrongRootSize
  | wrongHeaderSize
  | wrongTimestampType
  | wrongMetadataType
  | wrongBodyType
  | deserializationFailure
  | insufficientData
deriving DecidableEq

/-- `FLB_LOG_EVENT_FORMAT_FORWARD` and `FLB_LOG_EVENT_FORMAT_FLUENT_BIT_V2` -/
inductive Format where
  | forward
  | fluentBitV2

structure LogEvent where
  timestamp : Time
  rawTimestamp : Object
  metadata : Object
  body : Object
  root : Object
  format : Format

def int32At (data : Bytes) (start : Nat) : BitVec 64 :=
  (BitVec.ofNat 32 (load ((data.drop start).take 4))).signExtend 64

def decodeTimestamp : Object → Except Result Time
  | .positive u64 => .ok { sec := u64, nsec := 0 }
  | .float64 bits => .ok (timeOfDouble bits)
  | .ext type data =>
    if type ≠ 0 ∨ data.length ≠ 8 then .error .wrongTimestampType
    else .ok { sec := int32At data 0, nsec := int32At data 4 }
  | _ => .error .wrongTimestampType

def isTimestamp : Object → Bool
  | .positive _ | .float64 _ | .ext _ _ => true
  | _ => false

def isMap : Object → Bool
  | .map _ => true
  | _ => false

def decodeParts (root timestamp metadata body : Object) (format : Format) : Except Result LogEvent :=
  if !isTimestamp timestamp then .error .wrongTimestampType
  else if !isMap metadata then .error .wrongMetadataType
  else if !isMap body then .error .wrongBodyType
  else (decodeTimestamp timestamp).map fun time =>
    { timestamp := time, rawTimestamp := timestamp, metadata, body, root, format }

def decodeObject (root : Object) : Except Result LogEvent :=
  match root with
  | .array [.array [timestamp, metadata], body] => decodeParts root timestamp metadata body .fluentBitV2
  | .array [.array _, _] => .error .wrongHeaderSize
  | .array [timestamp, body] => decodeParts root timestamp (.map []) body .forward
  | .array _ => .error .wrongRootSize
  | _ => .error .wrongRootType

/-- `FLB_LOG_EVENT_NORMAL`, `FLB_LOG_EVENT_GROUP_START` and `FLB_LOG_EVENT_GROUP_END` -/
inductive RecordType where
  | normal
  | groupStart
  | groupEnd
deriving DecidableEq

def getRecordType (event : LogEvent) : Option RecordType :=
  let s := (event.timestamp.sec.setWidth 32).toInt
  if 0 ≤ s then some .normal
  else if s = -1 then some .groupStart
  else if s = -2 then some .groupEnd
  else none

structure Decoder where
  buffer : Bytes
  offset : Nat := 0
  previousOffset : Nat := 0
  recordBase : Option Nat := none
  recordLength : Nat := 0
  lastResult : Result := .insufficientData
  readGroups : Bool := true

def Decoder.fail (context : Decoder) (result : Result) : Decoder × Option LogEvent :=
  ({ context with lastResult := result }, none)

/-- `flb_log_event_decoder_next`. The calls it makes of itself pass one record each. -/
def nextWithin : Nat → Decoder → Decoder × Option LogEvent
  | 0, context => context.fail .insufficientData
  | fuel + 1, context =>
    if context.buffer.length = 0 then context.fail .insufficientData
    else
      let previousOffset := context.offset
      match unpackNext context.buffer context.offset with
      | (.more, offset) =>
        { context with recordBase := none, recordLength := 0, offset }.fail .insufficientData
      | (.parseError, offset) =>
        { context with recordBase := none, recordLength := 0, offset }.fail .deserializationFailure
      | (.success data, offset) =>
        let context := { context with recordBase := none, recordLength := 0, offset, previousOffset }
        match decodeObject data with
        | .error result => context.fail result
        | .ok event =>
          let context :=
            { context with
              recordBase := some previousOffset, recordLength := offset - previousOffset,
              lastResult := .success }
          match getRecordType event with
          | none => context.fail .deserializationFailure
          | some type =>
            if type ≠ .normal ∧ context.readGroups = false then nextWithin fuel context
            else (context, some event)

def Decoder.next (context : Decoder) : Decoder × Option LogEvent :=
  nextWithin (context.buffer.length + 1) context

def Decoder.getLastResult (context : Decoder) : Result :=
  if context.lastResult = .insufficientData ∧ context.offset = context.buffer.length then .success
  else context.lastResult

/-- The events that a loop over `flb_log_event_decoder_next` meets, and the decoder behind it. -/
def eventsWithin : Nat → Decoder → List LogEvent × Decoder
  | 0, context => ([], context)
  | fuel + 1, context =>
    match context.next with
    | (context, none) => ([], context)
    | (context, some event) =>
      let (events, context) := eventsWithin fuel context
      (event :: events, context)

def events (buffer : Bytes) : List LogEvent × Decoder := eventsWithin (buffer.length + 1) { buffer }

/-- The bytes from an offset are zero, as `memcmp` of them with themselves one byte
further tells once the first one is. -/
def isPadding (bytes : Bytes) : Bool := bytes.head? == some 0 && bytes.take (bytes.length - 1) == bytes.drop 1

def validRecord : Object → Bool
  | .array [.array [ts, metadata], record] => isMap metadata && isTimestamp ts && isMap record
  | .array [.array _, _] => false
  | .array [ts, record] => isTimestamp ts && isMap record
  | _ => false

def isArray : Object → Bool
  | .array _ => true
  | _ => false

/-- What a validation returns, and its `out_records` and `processed_bytes`. -/
structure Validation where
  ok : Bool
  records : Nat
  processed : Nat
deriving DecidableEq

/-- The loop of `flb_mp_validate_log_chunk`. -/
def validateWithin (data : Bytes) : Nat → Nat → Nat → Nat → Validation
  | 0, count, preOff, _ => { ok := true, records := count, processed := preOff }
  | fuel + 1, count, preOff, off =>
    match unpackNext data off with
    | (.success array, off) =>
      if !isArray array then { ok := isPadding (data.drop preOff), records := count, processed := preOff }
      else if validRecord array then validateWithin data fuel (count + 1) off off
      else { ok := false, records := count, processed := preOff }
    | _ => { ok := true, records := count, processed := preOff }

def validateLogChunk (data : Bytes) : Validation := validateWithin data (data.length + 1) 0 0 0

end FluentBit.Event
