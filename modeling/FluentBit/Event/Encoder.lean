import FluentBit.Event.Decoder
import FluentBit.Foundation.PackerProperties

/-! The writer of log events, after `src/flb_log_event_encoder.c`,
`src/flb_log_event_encoder_primitives.c` and `src/flb_log_event_encoder_dynamic_field.c`, with the
headers of maps and arrays that get their sizes at the end, after `src/flb_mp.c`. An allocation does
not fail, and a writer of bytes has no errors. -/

set_option autoImplicit false

namespace FluentBit.Event

open Msgpack (Object Container store)

/-- `msgpack_sbuffer`: the bytes behind `size` are left from earlier. -/
structure SBuffer where
  data : Bytes := []
  size : Nat := 0

def SBuffer.contents (buffer : SBuffer) : Bytes := buffer.data.take buffer.size

def patch (data : Bytes) (offset : Nat) (bytes : Bytes) : Bytes :=
  data.take offset ++ bytes ++ data.drop (offset + bytes.length)

def SBuffer.write (buffer : SBuffer) (bytes : Bytes) : SBuffer where
  data := patch buffer.data buffer.size bytes
  size := buffer.size + bytes.length

def SBuffer.clear (buffer : SBuffer) : SBuffer := { buffer with size := 0 }

/-- The bytes at `ptr` of `flb_mp_set_map_header_size` and `flb_mp_set_array_header_size`, for the
upper half of the first byte of a short header and the first bytes of the longer ones. -/
def setHeaderSize (short medium long : UInt8) (data : Bytes) (offset size : Nat) : Bytes :=
  match data[offset]? with
  | none => data
  | some h =>
    if h >>> 4 = short then patch data offset [short <<< 4 ||| UInt8.ofNat size]
    else if h = medium then patch data (offset + 1) (store 2 size)
    else if h = long then patch data (offset + 1) (store 4 size)
    else data

def flbMpSetMapHeaderSize : Bytes → Nat → Nat → Bytes := setHeaderSize 0x8 0xde 0xdf

def flbMpSetArrayHeaderSize : Bytes → Nat → Nat → Bytes := setHeaderSize 0x9 0xdc 0xdd

/-- `struct flb_log_event_encoder_dynamic_field_scope`, with the offset and the entries of its
header. -/
structure Scope where
  type : Container
  offset : Nat
  entries : Nat

/-- `struct flb_log_event_encoder_dynamic_field`; what `data` and `size` point to is there once the
field was flushed. -/
structure DynamicField where
  buffer : SBuffer := {}
  scopes : List Scope := []
  data : Option Bytes := none

namespace DynamicField

def append (field : DynamicField) : DynamicField :=
  match field.scopes with
  | [] => field
  | scope :: scopes => { field with scopes := { scope with entries := scope.entries + 1 } :: scopes }

/-- The header for 65536 entries, as `flb_mp_map_header_init` and `flb_mp_array_header_init` pack it. -/
def headerInit : Container → Bytes
  | .map => Msgpack.packMap 65536
  | .array => Msgpack.packArray 65536

def scopeEnter (type : Container) (field : DynamicField) : DynamicField :=
  let field := field.append
  { field with
    scopes := { type, offset := field.buffer.size, entries := 0 } :: field.scopes
    buffer := field.buffer.write (headerInit type) }

def headerEnd (scope : Scope) (data : Bytes) : Bytes :=
  match scope.type with
  | .map => flbMpSetMapHeaderSize data scope.offset (scope.entries / 2)
  | .array => flbMpSetArrayHeaderSize data scope.offset scope.entries

/-- `flb_log_event_encoder_dynamic_field_scope_leave` of a scope, for the scopes behind it. -/
def leave (commit : Bool) (scope : Scope) (buffer : SBuffer) : SBuffer :=
  if commit then { buffer with data := headerEnd scope buffer.data } else { buffer with size := scope.offset }

/-- `flb_log_event_encoder_dynamic_field_scope_leave` of the current scope, if there is one. -/
def scopeLeave (commit : Bool) (field : DynamicField) : DynamicField :=
  match field.scopes with
  | [] => field
  | scope :: scopes => { field with scopes, buffer := leave commit scope field.buffer }

def flushScopes (commit : Bool) (field : DynamicField) : DynamicField :=
  { field with
    scopes := []
    buffer := field.scopes.foldl (fun buffer scope => leave commit scope buffer) field.buffer }

def flush (field : DynamicField) : DynamicField :=
  let field := field.flushScopes true
  { field with data := if field.buffer.data = [] then none else some field.buffer.contents }

def reset (field : DynamicField) : DynamicField :=
  { flushScopes false { field with buffer := field.buffer.clear } with data := none }

/-- `flb_log_event_encoder_append_value` for bytes that make one value. Of a text only the length
counts as an entry, not the body behind it. -/
def appendValue (bytes : Bytes) (field : DynamicField) : DynamicField :=
  let field := field.append
  { field with buffer := field.buffer.write bytes }

end DynamicField

/-- `struct flb_log_event_encoder`; the output is what `output_buffer` and `output_length` give. -/
structure Encoder where
  format : Format
  timestamp : Time := { sec := 0, nsec := 0 }
  metadata : DynamicField := {}
  body : DynamicField := {}
  root : DynamicField := {}
  buffer : SBuffer := {}
  output : Bytes := []

inductive Target where
  | metadata
  | body

structure Value where
  bytes : Bytes
  object : Object
  encodes : Msgpack.Encodes bytes object

namespace Value

/-- `flb_log_event_encoder_append_msgpack_object`, `flb_log_event_encoder_append_null`,
`flb_log_event_encoder_append_boolean`, `flb_log_event_encoder_append_double`,
`flb_log_event_encoder_append_string`, `flb_log_event_encoder_append_binary`,
`flb_log_event_encoder_append_ext` and those for integers: each packs its value as `msgpack_pack_object`
does. -/
def ofObject (object : Object) (packable : Msgpack.Packable object) : Value :=
  ⟨Msgpack.pack object, object, Msgpack.encodes_pack packable⟩

end Value

namespace Encoder

def onField (target : Target) (change : DynamicField → DynamicField) (context : Encoder) : Encoder :=
  match target with
  | .metadata => { context with metadata := change context.metadata }
  | .body => { context with body := change context.body }

/-- `flb_log_event_encoder_reset_record` and `flb_log_event_encoder_rollback_record` -/
def resetRecord (context : Encoder) : Encoder :=
  { context with
    metadata := context.metadata.reset
    body := context.body.reset
    root := context.root.reset
    timestamp := { sec := 0, nsec := 0 } }

def beginRecord (context : Encoder) : Encoder :=
  let context := context.resetRecord
  { context with metadata := context.metadata.scopeEnter .map, body := context.body.scopeEnter .map }

/-- `flb_log_event_encoder_append_root_raw_msgpack`, which takes no null pointer. -/
def appendRaw (data : Option Bytes) (field : DynamicField) : Option DynamicField := data.map field.appendValue

/-- The root of a record, up to the flush of it in `flb_log_event_encoder_emit_record`. -/
def composeRoot (context : Encoder) : Option DynamicField :=
  let stamp := timeAppendToMsgpack context.timestamp .v1FixExt
  match context.format with
  | .forward => appendRaw context.body.data ((context.root.scopeEnter .array).appendValue stamp)
  | .fluentBitV2 => do
      let header ← appendRaw context.metadata.data
        (((context.root.scopeEnter .array).scopeEnter .array).appendValue stamp)
      appendRaw context.body.data (header.scopeLeave true)

def emitRecord (context : Encoder) : Encoder :=
  let root := if context.root.data.getD [] = [] then context.composeRoot.map DynamicField.flush else some context.root
  let buffer :=
    match root with
    | none => context.buffer
    | some root => context.buffer.write (root.data.getD [])
  { context with root := root.getD context.root, buffer, output := buffer.contents }.resetRecord

def commitRecord (context : Encoder) : Encoder :=
  { context with metadata := context.metadata.flush, body := context.body.flush }.emitRecord

end Encoder

inductive Call where
  | setTimestamp (timestamp : Time)
  | beginMap (target : Target)
  | beginArray (target : Target)
  | commitMap (target : Target)
  | commitArray (target : Target)
  | append (target : Target) (value : Value)

/-- `flb_log_event_encoder_set_timestamp`, `flb_log_event_encoder_body_begin_map` and the others. -/
def Encoder.call (context : Encoder) : Call → Encoder
  | .setTimestamp timestamp => { context with timestamp }
  | .beginMap target => context.onField target (·.scopeEnter .map)
  | .beginArray target => context.onField target (·.scopeEnter .array)
  | .commitMap target | .commitArray target => context.onField target (·.scopeLeave true)
  | .append target value => context.onField target (·.appendValue value.bytes)

/-- A record: the calls behind `flb_log_event_encoder_begin_record`, and whether they end in
`flb_log_event_encoder_commit_record` or `flb_log_event_encoder_rollback_record`. -/
structure Attempt where
  calls : List Call
  committed : Bool

def Encoder.record (context : Encoder) (attempt : Attempt) : Encoder :=
  let context := attempt.calls.foldl Encoder.call context.beginRecord
  if attempt.committed then context.commitRecord else context.resetRecord

/-- `flb_log_event_encoder_init` and the records after it. -/
def encode (format : Format) (attempts : List Attempt) : Encoder :=
  attempts.foldl Encoder.record { format }

end FluentBit.Event
