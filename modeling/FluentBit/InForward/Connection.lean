import FluentBit.Event.Decoder
import FluentBit.Gzip.CountMembers

/-! The messages of the forward input, after `plugins/in_forward/fw_prot.c`: the options, the three
modes, and what handling a message does. The calls out of the plugin (the encoder of records, the
inputs that records are appended to, the decoders of metrics and traces, the inflation of gzip
data) are parameters that may depend on all that happened before. -/

set_option autoImplicit false

namespace FluentBit.InForward

open Msgpack (Object)
open Event (Time)

/-- `FLB_EVENT_TYPE_LOGS`, `FLB_EVENT_TYPE_METRICS` and `FLB_EVENT_TYPE_TRACES` -/
inductive EventType where
  | logs
  | metrics
  | traces
deriving DecidableEq

/-- What the handling of a message does to the world: a call of `flb_input_log_append` (or of its
siblings for metrics and traces) for the record at some position of the message, with its result,
or a call of `send_ack`. -/
inductive Effect where
  | append (type : EventType) (position : Nat) (tag data : Bytes) (success : Bool)
  | ack (chunk : Object)

/-- `struct flb_in_fw_config` with its input instance, and the calls out of the plugin. -/
structure Input where
  tagPrefix : Option Bytes
  tag : Option Bytes
  tagDefault : Bool
  bufferChunkSize : Nat
  bufferMaxSize : Nat
  /-- From `flb_log_event_encoder_begin_record` to `flb_log_event_encoder_commit_record`. -/
  encode : List Effect → Time → Option Object → Object → Option Bytes
  /-- `cmt_decode_msgpack_create` and `ctr_decode_msgpack_create` -/
  decodes : EventType → Bytes → Bool
  appends : List Effect → EventType → Bytes → Bytes → Bool
  /-- `flb_gzip_uncompress` -/
  uncompress : Bytes → Option Bytes
  /-- What is read behind the end of an array. -/
  beyond : Object
  /-- Whether the pointer of an empty text is `NULL`, as `msgpack-c` leaves it where the bytes it was fed last
  held nothing behind a head before. -/
  nullText : List Effect → Bool

/-! ### Options -/

/-- The loop of `get_options_chunk` and `get_options_metadata`: the value of the key, which has to
fit. -/
def findOption (key : Bytes) (fits : Object → Bool) : List (Object × Object) → Option (Option Object)
  | [] => some none
  | (.str text, value) :: entries =>
    if text = key then if fits value then some (some value) else none else findOption key fits entries
  | _ :: entries => findOption key fits entries

def getOptions (key : Bytes) (fits : Object → Bool) (root : List Object) (expected : Nat) : Option (Option Object) :=
  match root[expected]? with
  | none | some .nil => some none
  | some (.map entries) => findOption key fits entries
  | some _ => none

def isStr : Object → Bool
  | .str _ => true
  | _ => false

/-- `get_options_chunk`, for the key `chunk` -/
def getOptionsChunk : List Object → Nat → Option (Option Object) := getOptions [0x63, 0x68, 0x75, 0x6e, 0x6b] isStr

/-- `get_options_metadata`, for the key `metadata` -/
def getOptionsMetadata : List Object → Nat → Option (Option Object) :=
  getOptions [0x6d, 0x65, 0x74, 0x61, 0x64, 0x61, 0x74, 0x61] Event.isMap

/-- The values `gzip` and `text` of the key `compressed`. -/
def compression : Object → Option Bool
  | .str text =>
    if text = [0x67, 0x7a, 0x69, 0x70] then some true
    else if text = [0x74, 0x65, 0x78, 0x74] then some false
    else none
  | _ => none

/-- The values of the key `fluent_signal`. -/
def signal : Object → Option EventType
  | .positive u64 =>
    if u64 = 0 then some .logs else if u64 = 1 then some .metrics else if u64 = 2 then some .traces else none
  | _ => none

/-- The loop of `is_gzip_compressed` and `get_chunk_event_type`, where every key has to be a text. -/
def scanOptions {α : Type} (key : Bytes) (read : Object → Option α) (default : α) : List (Object × Object) → Option α
  | [] => some default
  | (.str text, value) :: entries => if text = key then read value else scanOptions key read default entries
  | _ => none

/-- `is_gzip_compressed`, for the key `compressed` -/
def isGzipCompressed : Object → Option Bool
  | .map entries =>
    scanOptions [0x63, 0x6f, 0x6d, 0x70, 0x72, 0x65, 0x73, 0x73, 0x65, 0x64] compression false entries
  | _ => none

/-- `get_chunk_event_type`, for the key `fluent_signal` -/
def getChunkEventType : Object → Option EventType
  | .map entries =>
    scanOptions [0x66, 0x6c, 0x75, 0x65, 0x6e, 0x74, 0x5f, 0x73, 0x69, 0x67, 0x6e, 0x61, 0x6c] signal .logs entries
  | _ => none

def cutAt (data : Bytes) : Nat → List Nat → List Bytes
  | start, [] => [data.drop start]
  | start, border :: borders => (data.take border).drop start :: cutAt data border borders

/-- The payloads between the borders that `flb_gzip_count` finds. -/
def gzipPayloads (data : Bytes) : List Bytes := cutAt data 0 (Gzip.found data)

/-! ### Modes -/

structure Outcome where
  effects : List Effect
  accepted : Bool

def Outcome.refused : Outcome := { effects := [], accepted := false }

def Input.outTag (input : Input) (stag : Bytes) : Bytes :=
  match input.tagPrefix with
  | some tagPrefix => tagPrefix ++ stag
  | none =>
    match input.tag with
    | some tag => if input.tagDefault then stag else tag
    | none => stag

def acks : Option Object → List Effect
  | some chunk => [.ack chunk]
  | none => []

section

variable (input : Input)

/-- The call of `flb_input_log_append` for a record that was encoded. The result is not looked at. -/
def Input.appendRecord (history : List Effect) (position : Nat) (tag data : Bytes) : Effect :=
  .append .logs position tag data (input.appends history .logs tag data)

/-- `fw_process_forward_mode_entry`: what it appends, or nothing when it fails. -/
def fwProcessForwardModeEntry (history : List Effect) (position : Nat) (tag : Bytes) (entry : Object) : Option Effect :=
  match Event.decodeObject entry with
  | .error _ => none
  | .ok event =>
    (input.encode history event.timestamp (some event.metadata) event.body).map
      (input.appendRecord history position tag)

def processArray (tag : Bytes) : List Effect → Nat → List Object → List Effect
  | _, _, [] => []
  | history, position, entry :: entries =>
    match fwProcessForwardModeEntry input history position tag entry with
    | none => []
    | some effect => effect :: processArray tag (history ++ [effect]) (position + 1) entries

/-- `fw_process_message_mode_entry` without the ack. -/
def fwProcessMessageModeEntry (history : List Effect) (tag : Bytes) (ts : Object) (metadata : Option Object)
    (body : Object) : List Effect :=
  match Event.decodeTimestamp ts with
  | .error _ => []
  | .ok timestamp =>
    ((input.encode history timestamp metadata body).map (input.appendRecord history 0 tag)).toList

/-- `append_log`: what it appends, and whether it succeeds. -/
def appendLog (history : List Effect) (type : EventType) (position : Nat) (tag data : Bytes) : Outcome :=
  if type ≠ .logs ∧ !input.decodes type data then .refused
  else
    let success := input.appends history type tag data
    { effects := [.append type position tag data success], accepted := success }

def eventType (containOptions : Bool) (options : Object) : Option EventType :=
  if containOptions then getChunkEventType options else some .logs

/-- The loop at `retry_uncompress`. -/
def processPayloads (tag : Bytes) (type : Option EventType) : List Effect → Nat → List Bytes → Outcome
  | _, _, [] => { effects := [], accepted := true }
  | history, position, payload :: payloads =>
    match input.uncompress payload, type with
    | some data, some type =>
      let first := appendLog input history type position tag data
      if first.accepted then
        let later := processPayloads tag (some type) (history ++ first.effects) (position + 1) payloads
        { later with effects := first.effects ++ later.effects }
      else first
    | _, _ => .refused

def processPacked (history : List Effect) (tag data : Bytes) (containOptions : Bool) (options : Object) : Outcome :=
  match isGzipCompressed options with
  | none => .refused
  | some true => processPayloads input tag (eventType containOptions options) history 0 (gzipPayloads data)
  | some false =>
    match eventType containOptions options with
    | none => .refused
    | some type => appendLog input history type 0 tag data

/-- The pointer to the data is not `NULL`. -/
def hasData (nullText : Bool) : Object → Bool
  | .str [] => !nullText
  | _ => true

def Outcome.thenAck (outcome : Outcome) (chunk : Option Object) : Outcome :=
  if outcome.accepted then { outcome with effects := outcome.effects ++ acks chunk } else outcome

def packedForward (history : List Effect) (containOptions : Bool) (tag : Bytes) (root : List Object) (entry : Object)
    (data : Bytes) : Outcome :=
  match getOptionsChunk root 2 with
  | none => .refused
  | some chunk =>
    if hasData (input.nullText history) entry then
      (processPacked input history tag data containOptions (root[2]?.getD input.beyond)).thenAck chunk
    else { effects := [], accepted := true }

def messageMode (history : List Effect) (tag : Bytes) (root : List Object) (ts : Object) : Outcome :=
  if !Event.isMap (root[2]?.getD input.beyond) then .refused
  else
    match getOptionsChunk root 3, getOptionsMetadata root 3 with
    | some chunk, some metadata =>
      { effects :=
          fwProcessMessageModeEntry input history tag ts metadata (root[2]?.getD input.beyond) ++ acks chunk
        accepted := true }
    | _, _ => .refused

def forwardMode (history : List Effect) (tag : Bytes) (root entries : List Object) : Outcome :=
  match getOptionsChunk root 2 with
  | none => .refused
  | some chunk => { effects := processArray input tag history 0 entries ++ acks chunk, accepted := true }

/-- What `fw_prot_process` does with an object that was unpacked. -/
def processRoot (history : List Effect) (containOptions : Bool) : Object → Outcome
  | .array (.str stag :: entry :: more) =>
    let root := .str stag :: entry :: more
    let tag := input.outTag stag
    match entry with
    | .array entries => forwardMode input history tag root entries
    | .positive _ | .ext _ _ => messageMode input history tag root entry
    | .str data | .bin data => packedForward input history containOptions tag root entry data
    | _ => .refused
  | _ => .refused

end

/-! A connection of the forward input, after `fw_prot_process` in `plugins/in_forward/fw_prot.c` and
`plugins/in_forward/fw_conn.c`, once its handshake is over. The unpacker holds the bytes that were
fed to it behind the last object, and reports the size of an object as the number of its bytes. -/


def eachRecvSize : Nat := 32

inductive Fed (σ : Type) where
  | failed (world : σ)
  | fed (held : Bytes) (allUsed : Nat) (world : σ)

def Fed.world {σ : Type} : Fed σ → σ
  | .failed world | .fed _ _ world => world

section

variable {σ : Type} (handle : Object → σ → σ × Bool)

/-- The inner loop of `fw_prot_process`, from an object that was unpacked. Only the call before the
loop sets `bytes`. -/
def handleObjects (bytes : Nat) : Nat → Object → Bytes → Nat → σ → Fed σ
  | 0, _, held, allUsed, world => .fed held allUsed world
  | fuel + 1, root, held, allUsed, world =>
    match handle root world with
    | (world, false) => .failed world
    | (world, true) =>
      match Msgpack.unpack Event.embedStackSize held with
      | .done next behind => handleObjects bytes fuel next behind (allUsed + bytes) world
      | _ => .fed held (allUsed + bytes) world

/-- One round of the outer loop, with the bytes that `receiver_to_unpacker` gets. -/
def processFeed (feed held : Bytes) (allUsed : Nat) (world : σ) : Fed σ :=
  match Msgpack.unpack Event.embedStackSize (held ++ feed) with
  | .bad => .failed world
  | .short _ => .fed (held ++ feed) allUsed world
  | .done root behind =>
    handleObjects handle ((held ++ feed).length - behind.length) (behind.length + 1) root behind allUsed world

/-- The outer loop of `fw_prot_process` over the rest of the buffer. -/
def processFeeds : Nat → Bytes → Bytes → Nat → σ → Fed σ
  | 0, _, held, allUsed, world => .fed held allUsed world
  | fuel + 1, rest, held, allUsed, world =>
    if rest = [] then .fed held allUsed world
    else
      match processFeed handle (rest.take eachRecvSize) held allUsed world with
      | .failed world => .failed world
      | .fed held allUsed world => processFeeds fuel (rest.drop eachRecvSize) held allUsed world

def adjustBuffer (buf : Bytes) (allUsed : Nat) : Bytes :=
  if allUsed ≤ buf.length ∧ 0 < allUsed then buf.drop allUsed else buf

/-- `fw_prot_process`: the buffer behind it, unless it fails. -/
def processBuffer (buf : Bytes) (world : σ) : Option Bytes × σ :=
  match processFeeds handle (buf.length + 1) buf [] 0 world with
  | .failed world => (none, world)
  | .fed _ allUsed world => (some (adjustBuffer buf allUsed), world)

end

structure Handled where
  history : List Effect
  containOptions : Bool
  root : Object
  outcome : Outcome

/-- What a call does for the messages, with the local variable of `fw_prot_process` that outlives
one message. -/
structure World where
  handled : List Handled
  containOptions : Bool

def World.history (world : World) : List Effect := world.handled.flatMap fun message => message.outcome.effects

def hasOptions : Object → Bool
  | .array items => items.length == 3
  | _ => false

def handleMessage (input : Input) (root : Object) (world : World) : World × Bool :=
  let containOptions := world.containOptions || hasOptions root
  let outcome := processRoot input world.history containOptions root
  ({ handled := world.handled ++ [{ history := world.history, containOptions, root, outcome }], containOptions },
    outcome.accepted)

def fwProtProcess (input : Input) (buf : Bytes) (handled : List Handled) : Option Bytes × List Handled :=
  let (result, world) := processBuffer (handleMessage input) buf { handled, containOptions := false }
  (result, world.handled)

/-- `struct fw_conn`; the buffer holds `buf_len` bytes. -/
structure Conn where
  buf : Bytes
  bufSize : Nat

structure Session where
  conn : Conn
  closed : Bool
  stream : Bytes
  handled : List Handled

/-- `fw_conn_add` -/
def opened (input : Input) : Session where
  conn := { buf := [], bufSize := input.bufferChunkSize }
  closed := false
  stream := []
  handled := []

def Conn.available (conn : Conn) : Nat := conn.bufSize - conn.buf.length

def Conn.reserve (input : Input) (conn : Conn) : Option Conn :=
  if conn.available < 1 then
    if input.bufferMaxSize ≤ conn.bufSize then none
    else some { conn with bufSize := min (conn.bufSize + input.bufferChunkSize) input.bufferMaxSize }
  else some conn

def arriving (input : Input) (session : Session) (incoming : Bytes) : Bytes :=
  match session.conn.reserve input with
  | none => []
  | some conn => incoming.take conn.available

/-- `fw_conn_event` for `MK_EVENT_READ` -/
def fwConnEvent (input : Input) (incoming : Bytes) (session : Session) : Session :=
  if session.closed then session
  else
    match session.conn.reserve input with
    | none => { session with closed := true }
    | some conn =>
      let bytes := incoming.take conn.available
      if bytes = [] then { session with conn, closed := true }
      else
        let buf := conn.buf ++ bytes
        match fwProtProcess input buf session.handled with
        | (none, handled) =>
          { conn := { conn with buf }, closed := true, stream := session.stream ++ bytes, handled }
        | (some rest, handled) =>
          { conn := { conn with buf := rest }, closed := false, stream := session.stream ++ bytes, handled }

theorem reserve_eq {input : Input} {conn larger : Conn} (reserved : conn.reserve input = some larger) :
    larger.buf = conn.buf := by
  unfold Conn.reserve at reserved
  split at reserved
  · split at reserved
    · cases reserved
    · cases reserved
      rfl
  · cases reserved
    rfl

theorem event_cases (input : Input) (incoming : Bytes) (session : Session) :
    ((fwConnEvent input incoming session).stream = session.stream ∧
      (fwConnEvent input incoming session).handled = session.handled ∧
      (fwConnEvent input incoming session).conn.buf = session.conn.buf ∧
      (fwConnEvent input incoming session).closed = true) ∨
    (session.closed = false ∧ arriving input session incoming ≠ [] ∧
      (fwConnEvent input incoming session).stream = session.stream ++ arriving input session incoming ∧
      (fwConnEvent input incoming session).handled =
        (fwProtProcess input (session.conn.buf ++ arriving input session incoming) session.handled).2 ∧
      match (fwProtProcess input (session.conn.buf ++ arriving input session incoming) session.handled).1 with
      | none => (fwConnEvent input incoming session).closed = true
      | some rest =>
        (fwConnEvent input incoming session).closed = false ∧ (fwConnEvent input incoming session).conn.buf = rest) := by
  unfold fwConnEvent arriving
  split
  next closed => exact .inl ⟨rfl, rfl, rfl, closed⟩
  next isOpen =>
    cases reserved : session.conn.reserve input with
    | none => exact .inl ⟨rfl, rfl, rfl, rfl⟩
    | some conn =>
      have same := reserve_eq reserved
      simp only
      split
      · exact .inl ⟨rfl, rfl, same, rfl⟩
      next something =>
        rw [← same]
        refine .inr ⟨by simpa using isOpen, something, ?_⟩
        rcases fwProtProcess input (conn.buf ++ incoming.take conn.available) session.handled with
          ⟨_ | rest, handled⟩
        · exact ⟨rfl, rfl, rfl⟩
        · exact ⟨rfl, rfl, rfl, rfl⟩

end FluentBit.InForward
