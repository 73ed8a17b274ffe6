import FluentBit.Foundation.CString
import FluentBit.Json.Write

/-! Log streams, events and payloads of the CloudWatch output, after
`plugins/out_cloudwatch_logs/cloudwatch_api.c`. -/

set_option autoImplicit false

namespace FluentBit.CloudWatch

open Ascii

abbrev payloadSize : Nat := 1048576

abbrev maxEventsPerPut : Nat := 10000

abbrev headerLen : Nat := 72

abbrev perEventLen : Nat := 42

abbrev footerLen : Nat := 4

abbrev maxEventLen : Nat := 262118

abbrev oneDayInMilliseconds : Nat := 86400000

abbrev fourHoursInSeconds : Int := 14400

/-! ### Streams -/

structure Names where
  stream : Bytes
  group : Bytes
deriving DecidableEq

/-- `strcmp` finds no difference. -/
def Names.same (left right : Names) : Bool :=
  CString.strcmp left.stream right.stream = .eq && CString.strcmp left.group right.group = .eq

/-- `struct log_stream`, at its address -/
structure LogStream where
  address : Nat
  names : Names
  expiration : Int
  oldestEvent : Nat
  newestEvent : Nat
deriving DecidableEq

def LogStream.named (stream : LogStream) (names : Names) : Bool := names.same stream.names

/-- The loop of `get_or_create_log_stream`: the stream of the names, if there is one, and what is left of the
list, where the streams before it that have expired are destroyed. -/
def lookupStream (now : Int) (names : Names) : List LogStream → Option Nat × List LogStream
  | [] => (none, [])
  | stream :: streams =>
    if stream.named names then (some stream.address, stream :: streams)
    else
      let (found, left) := lookupStream now names streams
      (found, if stream.expiration < now then left else stream :: left)

/-- `struct cw_event`. `source` is not in the code: the names that its record has. -/
structure CwEvent where
  json : Bytes
  timestamp : Nat
  source : Names
deriving DecidableEq

def streamTimeSpan (stream : LogStream) (timestamp : Nat) : Nat :=
  if stream.oldestEvent = 0 ∨ stream.newestEvent = 0 then 0
  else if timestamp < stream.oldestEvent then stream.newestEvent - timestamp
  else if stream.newestEvent < timestamp then timestamp - stream.oldestEvent
  else stream.newestEvent - stream.oldestEvent

def checkStreamTimeSpan (stream : LogStream) (timestamp : Nat) : Bool :=
  streamTimeSpan stream timestamp < oneDayInMilliseconds

def setStreamTimeSpan (timestamp : Nat) (stream : LogStream) : LogStream :=
  { stream with
    oldestEvent := if stream.oldestEvent = 0 ∨ timestamp < stream.oldestEvent then timestamp else stream.oldestEvent
    newestEvent := if stream.newestEvent = 0 ∨ stream.newestEvent < timestamp then timestamp else stream.newestEvent }

def clearTimeSpan (stream : LogStream) : LogStream := { stream with oldestEvent := 0, newestEvent := 0 }

def renewExpiration (now : Int) (stream : LogStream) : LogStream :=
  { stream with expiration := now + fourHoursInSeconds }

def tryToWrite (text : Bytes) (str : Bytes) : Option Bytes :=
  if payloadSize ≤ text.length + str.length then none else some (text ++ str)

def initPutPayload (names : Names) : Option Bytes := do
  let text ← tryToWrite [] (ofString "\x7b\"logGroupName\":\"")
  let text ← tryToWrite text (CString.text names.group)
  let text ← tryToWrite text (ofString "\",\"logStreamName\":\"")
  let text ← tryToWrite text (CString.text names.stream)
  let text ← tryToWrite text (ofString "\",")
  tryToWrite text (ofString "\"logEvents\":[")

def writeEvent (text : Bytes) (event : CwEvent) : Option Bytes := do
  let text ← tryToWrite text (ofString "\x7b\"timestamp\":")
  let text ← tryToWrite text (Json.decimal event.timestamp)
  let text ← tryToWrite text (ofString ",\"message\":\"")
  let text ← tryToWrite text event.json
  tryToWrite text (ofString "\"\x7d")

def writeEvents (text : Bytes) : List CwEvent → Option Bytes
  | [] => some text
  | [event] => writeEvent text event
  | event :: events => do
      let text ← writeEvent text event
      let text ← tryToWrite text [comma]
      writeEvents text events

def endPutPayload (text : Bytes) : Option Bytes := tryToWrite text (ofString "]\x7d")

def putPayload (names : Names) (events : List CwEvent) : Option Bytes := do
  let text ← initPutPayload names
  let text ← writeEvents text events
  endPutPayload text

/-- `qsort` with `compare_events` -/
def sortEvents (events : List CwEvent) : List CwEvent :=
  events.mergeSort fun left right => left.timestamp ≤ right.timestamp

structure Formats (Object : Type) where
  /-- `flb_msgpack_to_json` -/
  msgpackToJson : Object → Nat → Option Bytes
  /-- `flb_utils_write_str` -/
  writeStr : Bytes → Nat → Option Bytes

def truncateLog (log : Bytes) : Bytes :=
  if maxEventLen < log.length then
    let log := log.take maxEventLen
    if (log.reverse.takeWhile (· = backslash)).length % 2 = 1 then log.dropLast else log
  else log

/-- The results of `process_event`. -/
inductive Processed where
  | failed
  | noSpace
  | discarded
  | event (json : Bytes) (tmpBufOffset : Nat)

section

variable {Object : Type}

/-- `process_event`, where `logKey` says whether `log_key` is set -/
def processEvent (formats : Formats Object) (logKey : Bool) (tmpBufOffset : Nat) (object : Object) : Processed :=
  match formats.msgpackToJson object (payloadSize - tmpBufOffset) with
  | none => .noSpace
  | some json =>
    if json = [] then .noSpace
    else if json.length ≤ 2 then .discarded
    else if logKey = false then
      match formats.writeStr json (json.length * 6) with
      | none => .failed
      | some escaped =>
        if payloadSize - tmpBufOffset < escaped.length then .noSpace
        else .event (truncateLog escaped) (tmpBufOffset + (truncateLog escaped).length)
    else
      let log := truncateLog ((json.drop 1).take (json.length - 2))
      .event log (tmpBufOffset + 1 + log.length)

end

def timestamp (seconds nanoseconds : Int) : Nat :=
  ((seconds * 1000 + nanoseconds.tdiv 1000000) % 2 ^ 64).toNat

/-! Flushes of the CloudWatch output. Each is a coroutine with a buffer of its own that runs
`process_and_send` until it waits for an HTTP response; the list of streams is shared. -/

/-! ### State -/

/-- A record of a chunk, with the values that are given to `add_event`. -/
structure Record (Object : Type) where
  names : Names
  values : List Object
  seconds : Int
  nanoseconds : Int

def Record.timestamp {Object : Type} (record : Record Object) : Nat :=
  CloudWatch.timestamp record.seconds record.nanoseconds

structure Payload where
  names : Names
  events : List CwEvent
  text : Bytes
deriving DecidableEq

inductive Point (Object : Type) where
  /-- At the next record. -/
  | next
  /-- At the start of `add_event`. -/
  | entering (stream : Nat) (record : Record Object)
  /-- At `retry_add_event`. -/
  | adding (stream : Nat) (record : Record Object)
  | ended

inductive Phase (Object : Type) where
  | running (point : Point Object)
  /-- Waits for the log stream to be created. -/
  | creating (record : Record Object)
  /-- Waits for the events to be put. -/
  | putting (retry : Bool) (payload : Payload) (point : Point Object)

/-- `struct cw_flush`, with the records that are left. `events` are those before `event_index`. -/
structure Flush (Object : Type) where
  tmpBufOffset : Nat
  dataSize : Nat
  events : List CwEvent
  currentStream : Option Nat
  records : List (Record Object)
  phase : Phase Object

/-- The streams of the context, the flushes, and the requests that have been sent. A new stream gets an
address that no other had. -/
structure System (Object : Type) where
  streams : List LogStream
  fresh : Nat
  flushes : Nat → Option (Flush Object)
  current : Option Nat
  sent : List Payload

section

variable {Object : Type}

def System.start : System Object where
  streams := []
  fresh := 0
  flushes := fun _ => none
  current := none
  sent := []

def System.stream? (s : System Object) (address : Nat) : Option LogStream :=
  s.streams.find? fun stream => stream.address = address

def System.read (s : System Object) (address : Nat) : LogStream :=
  (s.stream? address).getD
    { address, names := { stream := [], group := [] }, expiration := 0, oldestEvent := 0, newestEvent := 0 }

def System.modify (s : System Object) (address : Nat) (change : LogStream → LogStream) : System Object :=
  { s with streams := s.streams.map fun stream => if stream.address = address then change stream else stream }

def System.set (s : System Object) (i : Nat) (flush : Flush Object) : System Object :=
  { s with flushes := Function.update s.flushes i (some flush) }

def System.wait (s : System Object) : System Object := { s with current := none }

def newBuffer (records : List (Record Object)) : Flush Object where
  tmpBufOffset := 0
  dataSize := 0
  events := []
  currentStream := none
  records
  phase := .running .next

def Names.length (names : Names) : Nat := (CString.text names.stream).length + (CString.text names.group).length

def resetFlushBuf (s : System Object) (flush : Flush Object) : Flush Object :=
  { flush with
    events := []
    tmpBufOffset := 0
    dataSize := headerLen + footerLen + (flush.currentStream.elim 0 fun stream => (s.read stream).names.length) }

def Flush.goOn (flush : Flush Object) (point : Point Object) : Flush Object := { flush with phase := .running point }

def Flush.fail (flush : Flush Object) : Flush Object := { flush with records := [], phase := .running .next }

def afterSend (s : System Object) (i : Nat) (flush : Flush Object) (sent : Bool) (point : Point Object) : System Object :=
  let flush := resetFlushBuf s flush
  match sent, point with
  | true, point => s.set i (flush.goOn point)
  | false, .ended => s.set i (flush.goOn .ended)
  | false, _ => s.set i flush.fail

/-- `send_log_events` up to the request of `put_log_events`, which takes the time -/
def sendLogEvents (now : Int) (s : System Object) (i : Nat) (flush : Flush Object) (point : Point Object) :
    System Object :=
  if flush.events = [] then afterSend s i flush true point
  else
    let flush := { flush with events := sortEvents flush.events }
    match flush.currentStream with
    | none => afterSend s i flush false point
    | some address =>
      let stream := s.read address
      let s := s.modify address clearTimeSpan
      match putPayload stream.names flush.events with
      | none => afterSend s i flush false point
      | some text =>
        let payload := { names := stream.names, events := flush.events, text }
        let s := s.modify address (renewExpiration now)
        ({ s with sent := s.sent ++ [payload] }.set i { flush with phase := .putting true payload point }).wait

def Record.behind (stream : Nat) (record : Record Object) : Point Object :=
  .entering stream { record with values := record.values.tail }

def Flush.attach (s : System Object) (stream : Nat) (flush : Flush Object) : Flush Object :=
  let flush := { flush with currentStream := some stream }
  if flush.events = [] then resetFlushBuf s flush else flush

/-- What `add_event` does with an event that is in the buffer. -/
def keepEvent (now : Int) (s : System Object) (i : Nat) (flush : Flush Object) (logStream : LogStream)
    (record : Record Object) (json : Bytes) : System Object :=
  let retry := Point.adding logStream.address record
  let behind := record.behind logStream.address
  let eventBytes := json.length + perEventLen
  if checkStreamTimeSpan logStream record.timestamp = false then sendLogEvents now s i flush retry
  else if payloadSize < flush.dataSize + eventBytes then
    if flush.events = [] then s.set i (flush.goOn behind) else sendLogEvents now s i flush retry
  else
    let s := s.modify logStream.address (setStreamTimeSpan record.timestamp)
    let event := { json, timestamp := record.timestamp, source := record.names }
    let flush := { flush with dataSize := flush.dataSize + eventBytes, events := flush.events ++ [event] }
    if flush.events.length = maxEventsPerPut then sendLogEvents now s i flush behind else s.set i (flush.goOn behind)

variable (formats : Formats Object) (logKey : Bool)

/-- `add_event` from `retry_add_event` on -/
def retryAddEvent (now : Int) (s : System Object) (i : Nat) (flush : Flush Object) (stream : Nat) (record : Record Object)
    (object : Object) : System Object :=
  let flush := flush.attach s stream
  match processEvent formats logKey flush.tmpBufOffset object with
  | .failed => s.set i flush.fail
  | .noSpace =>
    if flush.events = [] then s.set i (flush.goOn (record.behind stream))
    else sendLogEvents now s i flush (.adding stream record)
  | .discarded => s.set i (flush.goOn (record.behind stream))
  | .event json tmpBufOffset => keepEvent now s i { flush with tmpBufOffset } (s.read stream) record json

/-- The loop of `process_log_events` up to `add_event`, and the last send when no record is left -/
def nextRecord (now : Int) (s : System Object) (i : Nat) (flush : Flush Object) : System Object :=
  match flush.records with
  | [] => sendLogEvents now s i flush .ended
  | record :: records =>
    let flush := { flush with records }
    let (found, left) := lookupStream now record.names s.streams
    let s := { s with streams := left }
    match found with
    | some stream => s.set i (flush.goOn (.entering stream record))
    | none => (s.set i { flush with phase := .creating record }).wait

/-- `add_event` up to `retry_add_event`, for the values that are left -/
def addEvent (now : Int) (s : System Object) (i : Nat) (flush : Flush Object) (stream : Nat) (record : Record Object) :
    System Object :=
  match record.values with
  | [] => s.set i (flush.goOn .next)
  | _ :: _ =>
    if flush.events ≠ [] ∧ flush.currentStream ≠ some stream then
      sendLogEvents now s i flush (.adding stream record)
    else s.set i (flush.goOn (.adding stream record))

/-- The next step of the flush that runs; `now` is what `time` gives in it. -/
def turn (now : Int) (s : System Object) (i : Nat) (flush : Flush Object) : Point Object → System Object
  | .next => nextRecord now s i flush
  | .entering stream record => addEvent now s i flush stream record
  | .adding stream record =>
    match record.values with
    | [] => s.set i (flush.goOn .next)
    | object :: _ => retryAddEvent formats logKey now s i flush stream record object
  | .ended => s.wait

/-- How `put_log_events` judges a response. -/
inductive Reply where
  | ok
  | invalid
  | failed
deriving DecidableEq

inductive Event (Object : Type) where
  | start (i : Nat) (records : List (Record Object))
  | turn (now : Int)
  | created (i : Nat) (success : Bool) (now : Int)
  | replied (i : Nat) (reply : Reply)

/-- The end of `get_or_create_log_stream` when it has created a stream. -/
def created (now : Int) (s : System Object) (i : Nat) (flush : Flush Object) (record : Record Object) : System Object :=
  let stream := {
    address := s.fresh
    names := record.names
    expiration := now + fourHoursInSeconds
    oldestEvent := 0
    newestEvent := 0 }
  { s with streams := s.streams ++ [stream], fresh := s.fresh + 1, current := some i }.set i
    (flush.goOn (.entering s.fresh record))

/-- The rest of `put_log_events`; an invalid response is retried once. -/
def replied (s : System Object) (i : Nat) (flush : Flush Object) (retry : Bool) (payload : Payload)
    (point : Point Object) : Reply → System Object
  | .ok => afterSend { s with current := some i } i flush true point
  | .failed => afterSend { s with current := some i } i flush false point
  | .invalid =>
    if retry = true then
      { s with sent := s.sent ++ [payload] }.set i { flush with phase := .putting false payload point }
    else afterSend { s with current := some i } i flush false point

def step (event : Event Object) (s : System Object) : System Object :=
  match event, s.current with
  | .turn now, some i =>
    match s.flushes i with
    | some flush =>
      match flush.phase with
      | .running point => turn formats logKey now s i flush point
      | _ => s
    | none => s
  | .start i records, none =>
    match s.flushes i with
    | none => { s with current := some i }.set i (newBuffer records)
    | some _ => s
  | .created i success now, none =>
    match s.flushes i with
    | some flush =>
      match flush.phase with
      | .creating record =>
        if success = true then created now s i flush record
        else { s with current := some i }.set i flush.fail
      | _ => s
    | none => s
  | .replied i reply, none =>
    match s.flushes i with
    | some flush =>
      match flush.phase with
      | .putting retry payload point => replied s i flush retry payload point reply
      | _ => s
    | none => s
  | _, _ => s

end

end FluentBit.CloudWatch
