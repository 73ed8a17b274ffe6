import FluentBit.Foundation.Ascii
import FluentBit.Foundation.Loop

/-! The binary network protocol of collectd, after `plugins/in_collectd/netprot.c`. Positions count
from the start of the datagram, and the memory goes on behind its end. -/

set_option autoImplicit false

namespace FluentBit.InCollectd

/-- `struct typesdb_node`; its count is the number of its fields. -/
structure TypesdbNode where
  type : Bytes
  fields : List String

/-- `struct netprot_header`; a string is the position of its first byte. -/
structure NetprotHeader where
  time : Float := 0
  interval : Float := 0
  host : Option Nat := none
  plugin : Option Nat := none
  pluginInstance : Option Nat := none
  type : Option Nat := none
  typeInstance : Option Nat := none

inductive Value where
  | cstring (position : Nat)
  | double (value : Float)
  | uint64 (value : Nat)
  | int64 (value : Int)

/-- The kinds of parts, in the order of their numbers from `PART_HOST` on. -/
inductive PartType where
  | host
  | time
  | plugin
  | pluginInstance
  | type
  | typeInstance
  | value
  | interval
  | timeHr
  | intervalHr
  | unknown
deriving DecidableEq

def partTypeOf : Nat → PartType
  | 0 => .host
  | 1 => .time
  | 2 => .plugin
  | 3 => .pluginInstance
  | 4 => .type
  | 5 => .typeInstance
  | 6 => .value
  | 7 => .interval
  | 8 => .timeHr
  | 9 => .intervalHr
  | _ => .unknown

def PartType.isTime : PartType → Bool
  | .time | .timeHr | .interval | .intervalHr => true
  | _ => false

def PartType.isString : PartType → Bool
  | .host | .plugin | .pluginInstance | .type | .typeInstance => true
  | _ => false

/-- The variables of `netprot_to_msgpack` and what it has committed to the encoder. -/
structure State where
  buf : Nat := 0
  len : Nat
  hdr : NetprotHeader := {}
  records : List (List (String × Value)) := []
  failed : Bool := false

/-- The bytes behind the header are those of the datagram, and `encodes` tells for the position of a
value part whether the encoder takes its record. -/
structure Input where
  memory : Nat → UInt8
  tdb : List TypesdbNode
  encodes : Nat → Bool

variable (input : Input)

/-- `be16read` and `be64read`. -/
def beRead : Nat → Nat → Nat
  | 0, _ => 0
  | width + 1, position => beRead width position * 256 + (input.memory (position + width)).toNat

def stringAt : Nat → Bytes → Bool
  | position, [] => input.memory position == 0
  | position, byte :: rest => input.memory position == byte && stringAt (position + 1) rest

def typesdbFindNode (type : Nat) : Option TypesdbNode :=
  input.tdb.reverse.find? fun node => stringAt input type node.type

def headerValues (hdr : NetprotHeader) : List (String × Value) :=
  [("type", hdr.type.map .cstring), ("type_instance", hdr.typeInstance.map .cstring),
    ("time", if 0 < hdr.time then some (.double hdr.time) else none),
    ("interval", if 0 < hdr.interval then some (.double hdr.interval) else none),
    ("plugin", hdr.plugin.map .cstring), ("plugin_instance", hdr.pluginInstance.map .cstring),
    ("host", hdr.host.map .cstring)].filterMap fun (key, value) => value.map (key, ·)

/-- The case of one value; a gauge is a double of the host, whose first byte is the lowest. -/
def dsValue (type : UInt8) (pval : Nat) : Option Value :=
  let raw := beRead input 8 pval
  if type = 0 ∨ type = 3 then some (.uint64 raw)
  else if type = 1 then
    some (.double (.ofBits (UInt64.ofNat ((List.range 8).foldr (fun i bits =>
      bits * 256 + (input.memory (pval + i)).toNat) 0))))
  else if type = 2 then some (.int64 (BitVec.ofNat 64 raw).toInt)
  else none

def netprotPackValue (ptr : Nat) (size : Int) (hdr : NetprotHeader) : Option (List (String × Value)) := do
  let type ← hdr.type
  let count := beRead input 2 ptr
  if size ≠ 2 + count * 9 then none
  else
    let node ← typesdbFindNode input type
    if node.fields.length ≠ count then none
    else
      let values ← node.fields.zipIdx.mapM fun (field, i) =>
        (dsValue input (input.memory (ptr + 2 + i)) (ptr + 2 + count + 8 * i)).map (field, ·)
      if input.encodes ptr then some (headerValues hdr ++ values) else none

def State.partType (state : State) : PartType := partTypeOf (beRead input 2 state.buf)

def State.partLen (state : State) : Nat := beRead input 2 (state.buf + 2)

def State.size (state : State) : Int := state.partLen input - 4

/-- The position of `ptr[size]`. -/
def State.terminator (state : State) : Nat := ((state.buf + 4 : Nat) + state.size input).toNat

/-- The checks in front of the `switch`. A negative size is a large one for the comparison with
`sizeof(uint64_t)`, which has no sign. -/
def State.refused (state : State) : Bool :=
  state.len < state.partLen input ||
    (state.partType input).isTime && decide (state.size input % 2 ^ 64 < 8)

def State.kept (state : State) : Bool :=
  (state.partType input).isString && input.memory (state.terminator input) == 0

/-- The header behind the `switch`. -/
def State.nextHdr (state : State) : NetprotHeader :=
  let ptr := state.buf + 4
  let hdr := state.hdr
  let raw := (UInt64.ofNat (beRead input 8 ptr)).toFloat
  match state.partType input with
  | .host => if state.kept input then { hdr with host := some ptr } else hdr
  | .time => { hdr with time := raw }
  | .timeHr => { hdr with time := raw / 1073741824 }
  | .plugin => if state.kept input then { hdr with plugin := some ptr } else hdr
  | .pluginInstance => if state.kept input then { hdr with pluginInstance := some ptr } else hdr
  | .type => if state.kept input then { hdr with type := some ptr } else hdr
  | .typeInstance => if state.kept input then { hdr with typeInstance := some ptr } else hdr
  | .interval => { hdr with interval := raw }
  | .intervalHr => { hdr with interval := raw / 1073741824 }
  | .value | .unknown => hdr

def Going (state : State) : Prop := state.failed = false ∧ 4 ≤ state.len
deriving Decidable

def body (state : State) : State :=
  if state.refused input then { state with failed := true }
  else
    let next := { state with
      hdr := state.nextHdr input
      buf := state.buf + state.partLen input
      len := state.len - state.partLen input }
    if state.partType input = .value then
      match netprotPackValue input (state.buf + 4) (state.size input) state.hdr with
      | none => { state with failed := true }
      | some record => { next with records := state.records ++ [record] }
    else next

/-- `netprot_to_msgpack` after so many rounds. -/
def netprotToMsgpack (len rounds : Nat) : State :=
  Loop.passes Going (body input) rounds { len }

end FluentBit.InCollectd
