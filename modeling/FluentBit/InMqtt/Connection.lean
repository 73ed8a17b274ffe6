import FluentBit.Foundation.Ascii
import FluentBit.Foundation.Runs
import Mathlib.Tactic.Ring

/-! A connection of the MQTT input, after `plugins/in_mqtt/mqtt_conn.c` and `mqtt_prot.c`, with the
control packets it handles. What is done with the payload of a message, and what the replies are
written to, is left out. -/

set_option autoImplicit false

namespace FluentBit.InMqtt

/-- `MQTT_NEW` and `MQTT_NEXT` -/
inductive Status where
  | new
  | next
deriving DecidableEq

/-- `struct mqtt_conn`; `buf` holds `buf_size` bytes, of which the first `buf_len` were read. -/
structure Conn where
  status : Status
  bufFrameEnd : Nat
  bufPos : Nat
  bufLen : Nat
  buf : Bytes

/-- What the parser does with a control packet. A message comes with its `qos` and the identifier
that is replied to. -/
inductive Handled where
  | connect
  | publish (qos : Nat) (packetId : Option Nat) (topic payload : Bytes)
  | ping
  | disconnect
  | ignored (type : Nat)
deriving DecidableEq

/-- `BUFC` at a position. -/
def Conn.byteAt (conn : Conn) (pos : Nat) : Nat := (conn.buf.getD pos 0).toNat

def Conn.slice (conn : Conn) (pos length : Nat) : Bytes := (conn.buf.drop pos).take length

def mqttPacketDrop (conn : Conn) : Conn :=
  if conn.bufPos = conn.bufLen ∨ conn.bufLen < conn.bufPos + 1 then
    { conn with bufFrameEnd := 0, bufLen := 0, bufPos := 0 }
  else
    let moveBytes := conn.bufPos + 1
    let left := conn.bufLen - moveBytes
    { conn with
      buf := conn.slice moveBytes left ++ conn.buf.drop left
      bufFrameEnd := 0
      bufLen := left
      bufPos := 0 }

/-- `mqtt_handle_publish`, nothing for a topic that is longer than the buffer. -/
def mqttHandlePublish (conn : Conn) : Option Handled :=
  let qos := conn.byteAt 0 / 2 % 4
  let hlen := conn.byteAt (conn.bufPos + 1) * 256 + conn.byteAt (conn.bufPos + 2)
  let topic := conn.bufPos + 3
  if conn.bufLen < hlen + (conn.bufPos + 2) then none
  else if qos = 0 then
    some (.publish qos none (conn.slice topic hlen)
      (conn.slice (topic + hlen) (conn.bufFrameEnd + 1 - (topic + hlen))))
  else
    let packetId := conn.byteAt (topic + hlen) * 256 + conn.byteAt (topic + hlen + 1)
    some (.publish qos (some packetId) (conn.slice topic hlen)
      (conn.slice (topic + hlen + 2) (conn.bufFrameEnd + 1 - (topic + hlen + 2))))

inductive Remaining where
  | more
  | error
  | found (bufPos length : Nat)

/-- The loop over the remaining length, from the position where the parser was called. It ends when
the multiplier gets too large. -/
def remainingLength (conn : Conn) (pos : Nat) : Nat → Nat → Nat → Nat → Remaining
  | 0, _, _, _ => .error
  | fuel + 1, bufPos, mult, length =>
    if conn.bufLen < bufPos + 1 then .more
    else
      let length := length + conn.byteAt bufPos % 128 * mult
      let mult := mult * 128
      if 128 * 128 * 128 < mult then .error
      else if conn.bufLen < length + 2 + pos then .more
      else if conn.byteAt bufPos < 128 then
        if conn.bufLen < length + 2 then .more else .found bufPos length
      else if bufPos + 1 < conn.bufLen then remainingLength conn pos fuel (bufPos + 1) mult length
      else .more

/-- The return values of the parser: `MQTT_MORE`, `MQTT_ERROR`, `MQTT_HANGUP` and `MQTT_OK`. -/
inductive Outcome where
  | more
  | error
  | hangup
  | ok
deriving DecidableEq

def handle (conn : Conn) (type : Nat) : Option Handled :=
  if type = 1 then some .connect
  else if type = 3 then mqttHandlePublish conn
  else if type = 12 then some .ping
  else if type = 14 then some .disconnect
  else some (.ignored type)

/-- The loop of `mqtt_prot_parser`, called at `pos`. Behind a packet the position is `-1`, and the
loop adds one to it; at the end one is taken off. -/
def parserLoop (pos : Nat) : Nat → Conn → Outcome × List Handled × Conn
  | 0, conn => (.ok, [], conn)
  | fuel + 1, conn =>
    if conn.bufLen ≤ conn.bufPos then (.ok, [], { conn with bufPos := conn.bufPos - 1 })
    else if conn.bufLen < conn.bufPos + 2 then (.more, [], { conn with bufPos := pos })
    else
      let type := conn.byteAt conn.bufPos / 16
      if conn.status = .new ∧ type ≠ 1 then (.error, [], conn)
      else
        match remainingLength conn pos 4 (conn.bufPos + 1) 1 0 with
        | .more => (.more, [], { conn with bufPos := pos })
        | .error => (.error, [], conn)
        | .found bufPos length =>
          let conn := { conn with bufPos, bufFrameEnd := bufPos + length }
          match handle conn type with
          | none => (.error, [], conn)
          | some .disconnect => (.hangup, [.disconnect], conn)
          | some handled =>
            let dropped := mqttPacketDrop { conn with status := .next, bufPos := conn.bufFrameEnd }
            if 0 < dropped.bufLen then
              let (outcome, later, conn) := parserLoop pos fuel dropped
              (outcome, handled :: later, conn)
            else (.ok, [handled], dropped)

/-- `mqtt_prot_parser`. Each round takes bytes off the buffer. -/
def mqttProtParser (conn : Conn) : Outcome × List Handled × Conn := parserLoop conn.bufPos (conn.bufLen + 1) conn

structure Session where
  conn : Conn
  closed : Bool
  stream : Bytes
  handled : List Handled

/-- `mqtt_conn_add` -/
def opened (bufferSize : Nat) : Session where
  conn := { status := .new, bufFrameEnd := 0, bufPos := 0, bufLen := 0, buf := List.replicate bufferSize 0 }
  closed := false
  stream := []
  handled := []

def arriving (session : Session) (incoming : Bytes) : Bytes :=
  incoming.take (session.conn.buf.length - session.conn.bufLen)

def Conn.received (conn : Conn) (bytes : Bytes) : Conn :=
  { conn with
    buf := conn.buf.take conn.bufLen ++ bytes ++ conn.buf.drop (conn.bufLen + bytes.length)
    bufLen := conn.bufLen + bytes.length }

/-- `mqtt_conn_event` for `MK_EVENT_READ` -/
def mqttConnEvent (incoming : Bytes) (session : Session) : Session :=
  if session.closed then session
  else if arriving session incoming = [] then { session with closed := true }
  else
    let (outcome, handled, conn) := mqttProtParser (session.conn.received (arriving session incoming))
    { conn
      closed := outcome = .error ∨ outcome = .hangup
      stream := session.stream ++ arriving session incoming
      handled := session.handled ++ handled }

end FluentBit.InMqtt
