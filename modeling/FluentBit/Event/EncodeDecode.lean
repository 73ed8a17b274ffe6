import FluentBit.Event.EncoderProperties
import FluentBit.Event.TimeRoundTrip
import FluentBit.Event.Validation

/-! Records that are written and read again: the decoder gives those that were committed. -/

set_option autoImplicit false

namespace FluentBit.Event

open List Nat
open Msgpack (Object Container Encodes depth)

structure Content where
  timestamp : Time
  metadata : Object
  body : Object

def contentOf (calls : List Call) : Option Content := do
  let draft ← draftOf calls
  let metadata ← finish draft.metadata
  let body ← finish draft.body
  return { timestamp := draft.timestamp, metadata, body }

def Content.seen (content : Content) : Format → Content
  | .forward => { content with metadata := .map [] }
  | .fluentBitV2 => content

def LogEvent.content (event : LogEvent) : Content :=
  { timestamp := event.timestamp, metadata := event.metadata, body := event.body }

def Content.root (content : Content) : Format → Object
  | .forward => .array [.ext 0 content.timestamp.data, content.body]
  | .fluentBitV2 => .array [.array [.ext 0 content.timestamp.data, content.metadata], content.body]

/-- Seconds and nanoseconds are numbers of 32 bits with a sign, and no seconds are negative but the
two that mark groups. -/
structure Time.Fits (time : Time) : Prop where
  sec : -2 ≤ time.sec.toInt ∧ time.sec.toInt < 2 ^ 31
  nsec : -2 ^ 31 ≤ time.nsec.toInt ∧ time.nsec.toInt < 2 ^ 31

structure Content.Fits (content : Content) (format : Format) : Prop where
  timestamp : content.timestamp.Fits
  deep : depth (content.root format) ≤ embedStackSize

def Attempt.Proper (attempt : Attempt) (format : Format) : Prop :=
  if attempt.committed then ∃ content, contentOf attempt.calls = some content ∧ content.Fits format
  else (draftOf attempt.calls).isSome = true

def Attempt.content (attempt : Attempt) : Option Content :=
  if attempt.committed then contentOf attempt.calls else none

variable {object : Object}

section

variable {context : Encoder} {draft : Draft}

theorem ne_nil_of_encodes {bytes : Bytes} (encodes : Encodes bytes object) : bytes ≠ [] := by
  rintro rfl
  have read := encodes.unpack (Nat.le_refl _) []
  cases read

theorem encodes_time (time : Time) : Encodes (timeAppendToMsgpack time .v1FixExt) (.ext 0 time.data) := by
  have encoded := Msgpack.encodes_pack (@Msgpack.Packable.ext 0 time.data (by rw [Time.length_data]; decide))
  rw [Msgpack.pack, Time.length_data] at encoded
  simpa [timeAppendToMsgpack, Time.data] using encoded

theorem Represents.flush {field : DynamicField} {layers : List Layer} (represents : Represents field layers)
    (finished : finish (layers.map Layer.toOpen) = some object) :
    ∃ bytes, Encodes bytes object ∧ field.flush.data = some bytes := by
  cases layers with
  | nil => cases finished
  | cons layer outers =>
    obtain ⟨bytes, encodes, holds⟩ := represents.flushScopes finished
    refine ⟨bytes, encodes, ?_⟩
    obtain ⟨rest, data⟩ := holds.split
    have some : (field.flushScopes true).buffer.data ≠ [] := by
      rw [data]
      intro empty
      exact ne_nil_of_encodes encodes (append_eq_nil_iff.mp empty).1
    simp [DynamicField.flush, some, holds.1]

theorem composeRoot_spec (fresh : Represents context.root []) {metadata body : Object} {metadataBytes bodyBytes : Bytes}
    (metadataData : context.metadata.data = some metadataBytes) (bodyData : context.body.data = some bodyBytes)
    (encodesMetadata : Encodes metadataBytes metadata) (encodesBody : Encodes bodyBytes body) :
    ∃ root bytes, context.composeRoot = some root ∧ root.flush.data = some bytes ∧
      Encodes bytes (Content.root ⟨context.timestamp, metadata, body⟩ context.format) := by
  have stamp := encodes_time context.timestamp
  cases format : context.format with
  | forward =>
    have whole := (((fresh.enter .array).append stamp).append encodesBody)
    obtain ⟨bytes, encodes, data⟩ := whole.flush
      (show _ = some (Content.root ⟨context.timestamp, metadata, body⟩ .forward) from rfl)
    refine ⟨_, bytes, ?_, data, encodes⟩
    simp [Encoder.composeRoot, format, Encoder.appendRaw, bodyData]
  | fluentBitV2 =>
    have header := (((fresh.enter .array).enter .array).append stamp).append encodesMetadata
    have whole := (header.leave (show _ = some (.array [.ext 0 context.timestamp.data, metadata]) from rfl)).append encodesBody
    obtain ⟨bytes, encodes, data⟩ := whole.flush
      (show _ = some (Content.root ⟨context.timestamp, metadata, body⟩ .fluentBitV2) from rfl)
    refine ⟨_, bytes, ?_, data, encodes⟩
    simp [Encoder.composeRoot, format, Encoder.appendRaw, metadataData, bodyData]

theorem Drafted.commitRecord (drafted : Drafted context draft) {metadata body : Object}
    (finishedMetadata : finish draft.metadata = some metadata) (finishedBody : finish draft.body = some body) :
    ∃ bytes, Encodes bytes (Content.root ⟨draft.timestamp, metadata, body⟩ context.format) ∧
      context.commitRecord.buffer = context.buffer.write bytes ∧
      context.commitRecord.output = (context.buffer.write bytes).contents ∧ Idle context.commitRecord := by
  obtain ⟨metadataLayers, representsMetadata, sameMetadata⟩ := drafted.metadata
  obtain ⟨bodyLayers, representsBody, sameBody⟩ := drafted.body
  rw [← sameMetadata] at finishedMetadata
  rw [← sameBody] at finishedBody
  obtain ⟨metadataBytes, encodesMetadata, metadataData⟩ := representsMetadata.flush finishedMetadata
  obtain ⟨bodyBytes, encodesBody, bodyData⟩ := representsBody.flush finishedBody
  obtain ⟨root, bytes, composed, rootData, encodes⟩ := @composeRoot_spec
    { context with metadata := context.metadata.flush, body := context.body.flush } drafted.root.1 _ _ _ _ metadataData bodyData
    encodesMetadata encodesBody
  rw [drafted.timestamp] at encodes
  have noRoot : context.root.data.getD [] = [] := by rw [drafted.root.2]; rfl
  refine ⟨bytes, encodes, ?_, ?_, ?_, ?_, ?_, ?_⟩
  · simp [Encoder.commitRecord, Encoder.emitRecord, noRoot, composed, rootData, Encoder.resetRecord]
  · simp [Encoder.commitRecord, Encoder.emitRecord, noRoot, composed, rootData, Encoder.resetRecord]
  · exact represents_reset (show _ = scopesOf 0 [] from rfl)
  · exact represents_reset (show _ = scopesOf 0 [] from rfl)
  · simp only [Encoder.commitRecord, Encoder.emitRecord, noRoot, if_true, composed, Option.map_some, Encoder.resetRecord,
      Option.getD_some]
    exact represents_reset (show _ = scopesOf 0 [] from rfl)
  · rfl

theorem buffer_call (context : Encoder) (call : Call) :
    (context.call call).buffer = context.buffer ∧ (context.call call).format = context.format ∧
      (context.call call).output = context.output := by
  cases call with
  | setTimestamp timestamp => exact ⟨rfl, rfl, rfl⟩
  | beginMap target | beginArray target | commitMap target | commitArray target | append target value =>
    cases target <;> exact ⟨rfl, rfl, rfl⟩

theorem buffer_calls (context : Encoder) (calls : List Call) :
    (calls.foldl Encoder.call context).buffer = context.buffer ∧
      (calls.foldl Encoder.call context).format = context.format ∧
      (calls.foldl Encoder.call context).output = context.output := by
  induction calls generalizing context with
  | nil => exact ⟨rfl, rfl, rfl⟩
  | cons call calls ih =>
    obtain ⟨buffer, format, output⟩ := ih (context.call call)
    obtain ⟨sameBuffer, sameFormat, sameOutput⟩ := buffer_call context call
    exact ⟨buffer.trans sameBuffer, format.trans sameFormat, output.trans sameOutput⟩

end

/-! ### Maps -/

def Rooted (stack : List Open) : Prop := ∃ front items, stack = front ++ [⟨.map, items⟩]

theorem Rooted.add {stack next : List Open} (rooted : Rooted stack) (added : addTop object stack = some next) :
    Rooted next := by
  obtain ⟨front, items, rfl⟩ := rooted
  cases front with
  | nil =>
    cases added
    exact ⟨[], _, rfl⟩
  | cons top front =>
    cases added
    exact ⟨top.add object :: front, items, rfl⟩

theorem Rooted.commit {stack next : List Open} (rooted : Rooted stack) (committed : commit stack = some next) : Rooted next := by
  obtain ⟨front, items, rfl⟩ := rooted
  cases front with
  | nil => cases committed
  | cons top front =>
    cases front with
    | nil =>
      obtain ⟨object, _, rfl⟩ := Option.map_eq_some_iff.mp committed
      exact ⟨[], _, rfl⟩
    | cons parent front =>
      obtain ⟨object, _, rfl⟩ := Option.map_eq_some_iff.mp committed
      exact ⟨parent.add object :: front, items, rfl⟩

theorem Rooted.enter {stack : List Open} (rooted : Rooted stack) (container : Open) : Rooted (container :: stack) := by
  obtain ⟨front, items, rfl⟩ := rooted
  exact ⟨container :: front, items, rfl⟩

theorem close_map {items : List Object} (closed : (Open.mk .map items).close = some object) : isMap object = true := by
  unfold Open.close at closed
  split at closed
  · obtain ⟨pairs, _, rfl⟩ := Option.map_eq_some_iff.mp closed
    rfl
  · cases closed

theorem Rooted.finish {stack : List Open} (rooted : Rooted stack) (finished : finish stack = some object) :
    isMap object = true := by
  obtain ⟨front, items, rfl⟩ := rooted
  cases front with
  | nil =>
    have closed : (Open.mk .map items).close = some object := by simpa [Event.finish] using finished
    exact close_map closed
  | cons top front =>
    rw [cons_append, Event.finish] at finished
    obtain ⟨first, _, finished⟩ := Option.bind_eq_some_iff.mp finished
    rw [foldlM_append] at finished
    obtain ⟨inner, _, last⟩ := Option.bind_eq_some_iff.mp finished
    have closed : (Open.mk .map (items ++ [inner])).close = some object := by simpa [Open.add] using last
    exact close_map closed

structure Draft.Maps (draft : Draft) : Prop where
  metadata : Rooted draft.metadata
  body : Rooted draft.body

theorem Draft.Maps.onField {draft next : Draft} (maps : draft.Maps) {target : Target}
    {change : List Open → Option (List Open)} (keeps : ∀ stack changed, Rooted stack → change stack = some changed → Rooted changed)
    (changed : draft.onField target change = some next) : next.Maps := by
  cases target with
  | metadata =>
    obtain ⟨stack, applied, rfl⟩ := Option.map_eq_some_iff.mp changed
    exact ⟨keeps _ _ maps.metadata applied, maps.body⟩
  | body =>
    obtain ⟨stack, applied, rfl⟩ := Option.map_eq_some_iff.mp changed
    exact ⟨maps.metadata, keeps _ _ maps.body applied⟩

theorem Draft.Maps.call {draft next : Draft} (maps : draft.Maps) {call : Call} (called : draft.call call = some next) :
    next.Maps := by
  have enters : ∀ (container : Open) (stack changed : List Open), Rooted stack → some (container :: stack) = some changed →
      Rooted changed := by
    rintro container stack _ rooted ⟨⟩
    exact rooted.enter container
  cases call with
  | setTimestamp timestamp =>
    cases called
    exact ⟨maps.metadata, maps.body⟩
  | beginMap target | beginArray target => exact maps.onField (enters _) called
  | commitMap target | commitArray target => exact maps.onField (fun _ _ rooted => rooted.commit) called
  | append target value => exact maps.onField (fun _ _ rooted => rooted.add) called

theorem maps_draftOf {calls : List Call} {draft next : Draft} (maps : draft.Maps)
    (called : calls.foldlM Draft.call draft = some next) : next.Maps := by
  induction calls generalizing draft with
  | nil =>
    cases called
    exact maps
  | cons call calls ih =>
    rw [foldlM_cons] at called
    obtain ⟨middle, first, later⟩ := Option.bind_eq_some_iff.mp called
    exact ih (maps.call first) later

/-! ### Reading -/

theorem signExtend_of_fits (number : BitVec 64) (low : -2 ^ 31 ≤ number.toInt) (high : number.toInt < 2 ^ 31) :
    (BitVec.ofNat 32 (number.toNat % 2 ^ 32)).signExtend 64 = number := by
  have bound := number.isLt
  have half : (BitVec.ofNat 32 (number.toNat % 2 ^ 32)).toNat = number.toNat % 2 ^ 32 := by
    rw [BitVec.toNat_ofNat, mod_mod]
  rw [BitVec.toInt_eq_toNat_cond] at low high
  rw [← BitVec.toNat_inj, BitVec.toNat_signExtend, BitVec.toNat_setWidth, BitVec.msb_eq_decide, half]
  by_cases positive : number.toNat % 2 ^ 32 < 2 ^ 31
  · rw [if_neg (by simp; omega)]
    split at low
    · rw [if_pos ‹_›] at high
      omega
    · rw [if_neg ‹_›] at high
      omega
  · rw [if_pos (by simp; omega)]
    split at low
    · rw [if_pos ‹_›] at high
      omega
    · rw [if_neg ‹_›] at high
      omega

theorem decodeTimestamp_of_fits {time : Time} (fits : time.Fits) : decodeTimestamp (.ext 0 time.data) = .ok time := by
  obtain ⟨⟨secLow, secHigh⟩, nsecLow, nsecHigh⟩ := fits
  have sec : int32At time.data 0 = time.sec := by
    rw [int32At, drop_zero, Time.load_take_data]
    exact signExtend_of_fits time.sec (by omega) secHigh
  have nsec : int32At time.data 4 = time.nsec := by
    rw [int32At, Time.load_drop_data]
    exact signExtend_of_fits time.nsec nsecLow nsecHigh
  simp [decodeTimestamp, Time.length_data, sec, nsec]

theorem recordType_of_fits {event : LogEvent} (fits : event.timestamp.Fits) : (getRecordType event).isSome = true := by
  rw [getRecordType_isSome, decide_eq_true_eq]
  have known := signExtend_of_fits event.timestamp.sec (by have := fits.sec.1; omega) fits.sec.2
  have kept := congrArg (fun sec => (BitVec.setWidth 32 sec).toInt) known
  simp only [setWidth_signExtend] at kept
  rw [← kept, ← BitVec.toInt_signExtend_of_le (show 32 ≤ 64 by decide), known]
  exact fits.sec.1

def Content.event (content : Content) (format : Format) : LogEvent where
  timestamp := content.timestamp
  rawTimestamp := .ext 0 content.timestamp.data
  metadata := (content.seen format).metadata
  body := content.body
  root := content.root format
  format := format

theorem decodeObject_root {content : Content} {format : Format} (fits : content.timestamp.Fits)
    (metadata : isMap content.metadata = true) (body : isMap content.body = true) :
    decodeObject (content.root format) = .ok (content.event format) := by
  have time := decodeTimestamp_of_fits fits
  have empty : isMap (.map []) = true := rfl
  have stamp : isTimestamp (.ext 0 content.timestamp.data) = true := rfl
  cases format with
  | forward => simp [Content.root, decodeObject, decodeParts, time, empty, stamp, body, Except.map, Content.event, Content.seen]
  | fluentBitV2 => simp [Content.root, decodeObject, decodeParts, time, stamp, metadata, body, Except.map, Content.event, Content.seen]

theorem next_of_decoded {context : Decoder} {record : Object} {event : LogEvent} {off : Nat}
    (groups : context.readGroups = true) (unpacked : unpackNext context.buffer context.offset = (.success record, off))
    (decoded : decodeObject record = .ok event) (typed : (getRecordType event).isSome = true) :
    ∃ after, context.next = (after, some event) ∧ after.buffer = context.buffer ∧ after.offset = off ∧
      after.readGroups = true := by
  have inside : context.buffer.length ≠ 0 := by
    intro empty
    simp [unpackNext, empty] at unpacked
  obtain ⟨type, known⟩ := Option.isSome_iff_exists.mp typed
  simp [Decoder.next, nextWithin, inside, unpacked, decoded, known, groups]

inductive Readable : Bytes → List LogEvent → Prop where
  | nil : Readable [] []
  | cons {piece bytes : Bytes} {record : Object} {event : LogEvent} {events : List LogEvent} :
      Encodes piece record → depth record ≤ embedStackSize → decodeObject record = .ok event →
        (getRecordType event).isSome = true → Readable bytes events → Readable (piece ++ bytes) (event :: events)

theorem Readable.append {front back : Bytes} {events later : List LogEvent} (first : Readable front events)
    (second : Readable back later) : Readable (front ++ back) (events ++ later) := by
  induction first with
  | nil => exact second
  | cons encodes deep decoded typed _ ih =>
    rw [append_assoc]
    exact .cons encodes deep decoded typed ih

theorem Readable.length_le {bytes : Bytes} {events : List LogEvent} (readable : Readable bytes events) :
    events.length ≤ bytes.length := by
  induction readable with
  | nil => exact Nat.le_refl _
  | cons encodes _ _ _ _ ih =>
    have := length_pos_iff.mpr (ne_nil_of_encodes encodes)
    rw [length_append, length_cons]
    omega

theorem eventsWithin_readable {bytes : Bytes} {events : List LogEvent} (readable : Readable bytes events) {fuel : Nat}
    (enough : events.length < fuel) (before : Bytes) (context : Decoder) (whole : context.buffer = before ++ bytes)
    (start : context.offset = before.length) (groups : context.readGroups = true) :
    (eventsWithin fuel context).1 = events ∧ (eventsWithin fuel context).2.getLastResult = .success := by
  induction readable generalizing fuel before context with
  | nil =>
    have ended : context.offset = context.buffer.length := by simp [start, whole]
    obtain ⟨nothing, result, _⟩ := next_at_end ended
    obtain ⟨fuel, rfl⟩ : ∃ fewer, fuel = fewer + 1 := ⟨fuel - 1, by simp at enough; omega⟩
    rcases stepped : context.next with ⟨after, event⟩
    rw [stepped] at nothing result
    cases nothing
    simp only [eventsWithin, stepped]
    exact ⟨trivial, result⟩
  | @cons piece bytes record event events encodes deep decoded typed _ ih =>
    obtain ⟨fuel, rfl⟩ : ∃ fewer, fuel = fewer + 1 := ⟨fuel - 1, by omega⟩
    have unpacked : unpackNext context.buffer context.offset = (.success record, before.length + piece.length) := by
      have next := unpackNext_append before (piece ++ bytes)
        (fun empty => ne_nil_of_encodes encodes (append_eq_nil_iff.mp empty).1) (encodes.unpack deep bytes)
      rw [whole, start, next]
      simp only [length_append, Prod.mk.injEq, true_and]
      omega
    obtain ⟨after, stepped, sameBuffer, offset, sameGroups⟩ := next_of_decoded groups unpacked decoded typed
    obtain ⟨rest, result⟩ := ih (lt_of_succ_lt_succ enough) (before ++ piece) after (by rw [sameBuffer, whole, append_assoc])
      (by rw [offset, length_append]) sameGroups
    simp only [eventsWithin, stepped]
    exact ⟨by rw [rest], result⟩

/-! ### The round trip -/

structure Written (context : Encoder) (format : Format) (contents : List Content) : Prop where
  idle : Idle context
  formatted : context.format = format
  output : ∃ bytes, context.buffer.Holds bytes ∧ context.output = bytes ∧
    Readable bytes (contents.map fun content => content.event format)

theorem Written.record {context : Encoder} {format : Format} {contents : List Content} (written : Written context format contents)
    {attempt : Attempt} (proper : attempt.Proper format) :
    Written (context.record attempt) format (contents ++ attempt.content.toList) := by
  obtain ⟨bytes, holds, output, readable⟩ := written.output
  obtain ⟨sameBuffer, sameFormat, sameOutput⟩ := buffer_calls context.beginRecord attempt.calls
  have begun := written.idle.beginRecord
  unfold Attempt.Proper at proper
  unfold Encoder.record Attempt.content
  split at proper
  next committed =>
    obtain ⟨content, made, fits⟩ := proper
    obtain ⟨draft, drafted, rest⟩ := Option.bind_eq_some_iff.mp made
    obtain ⟨metadata, finishedMetadata, rest⟩ := Option.bind_eq_some_iff.mp rest
    obtain ⟨body, finishedBody, same⟩ := Option.bind_eq_some_iff.mp rest
    cases same
    have maps : draft.Maps := maps_draftOf ⟨⟨[], [], rfl⟩, [], [], rfl⟩ drafted
    obtain ⟨added, encodes, buffer, out, idle⟩ := (begun.calls drafted).commitRecord finishedMetadata finishedBody
    have held := holds.write added
    have formatted : (attempt.calls.foldl Encoder.call context.beginRecord).format = format := sameFormat.trans written.formatted
    rw [formatted] at encodes
    rw [sameBuffer] at buffer out
    simp only [committed, if_true, made, Option.toList_some]
    refine ⟨idle, formatted, bytes ++ added, by rw [buffer]; exact held, by rw [out]; exact held.1, ?_⟩
    rw [map_append]
    apply readable.append
    have decoded := @decodeObject_root ⟨draft.timestamp, metadata, body⟩ format fits.timestamp
      (maps.metadata.finish finishedMetadata) (maps.body.finish finishedBody)
    have single := Readable.cons encodes fits.deep decoded (recordType_of_fits fits.timestamp) .nil
    rwa [append_nil] at single
  next rolled =>
    obtain ⟨draft, drafted⟩ := Option.isSome_iff_exists.mp proper
    have idle := (begun.calls drafted).resetRecord
    rw [if_neg rolled, if_neg rolled, Option.toList_none, append_nil]
    exact ⟨idle, sameFormat.trans written.formatted, bytes, by rw [Encoder.resetRecord, sameBuffer]; exact holds,
      sameOutput.trans output, readable⟩

theorem written_encode {format : Format} {attempts : List Attempt} (proper : ∀ attempt ∈ attempts, attempt.Proper format) :
    Written (encode format attempts) format (attempts.filterMap Attempt.content) := by
  have run : ∀ (context : Encoder) (contents : List Content), Written context format contents →
      Written (attempts.foldl Encoder.record context) format (contents ++ attempts.filterMap Attempt.content) := by
    induction attempts with
    | nil =>
      intro context contents written
      rw [filterMap_nil, append_nil]
      exact written
    | cons attempt attempts ih =>
      intro context contents written
      obtain ⟨first, later⟩ := forall_mem_cons.mp proper
      have next := ih later _ _ (written.record first)
      rw [append_assoc] at next
      cases content : attempt.content with
      | none | some content => simpa [filterMap_cons, content] using next
  exact run { format } [] ⟨idle_init format, rfl, [], SBuffer.holds_empty, rfl, .nil⟩

/-- The decoder gives the records that were committed, in order. -/
theorem decode_encode (format : Format) (attempts : List Attempt) (proper : ∀ attempt ∈ attempts, attempt.Proper format) :
    (events (encode format attempts).output).1.map LogEvent.content =
        (attempts.filterMap Attempt.content).map (fun content => content.seen format) ∧
      (events (encode format attempts).output).2.getLastResult = .success := by
  obtain ⟨bytes, _, output, readable⟩ := (written_encode proper).output
  have enough := readable.length_le
  obtain ⟨read, result⟩ := eventsWithin_readable readable (lt_succ_of_le enough) [] { buffer := bytes } rfl rfl rfl
  rw [output]
  refine ⟨?_, result⟩
  unfold events
  rw [read, map_map]
  apply map_congr_left
  intro content _
  cases format <;> rfl

section

private def key : Value := .ofObject (.str [0x61]) (.str (by decide))

/-- A record with the body `{"a": []}`, then one that is rolled back with a scope still open. -/
private def sampleAttempts : List Attempt :=
  [⟨[.setTimestamp { sec := 1, nsec := 2 }, .append .body key, .beginArray .body, .commitArray .body], true⟩,
   ⟨[.append .metadata key, .beginMap .metadata], false⟩]

theorem decode_encode_sample : (events (encode .fluentBitV2 sampleAttempts).output).1.map LogEvent.content =
        [⟨{ sec := 1, nsec := 2 }, .map [], .map [(.str [0x61], .array [])]⟩] ∧
      (events (encode .fluentBitV2 sampleAttempts).output).2.getLastResult = .success := by
  apply decode_encode .fluentBitV2 sampleAttempts
  rintro attempt (_ | ⟨_, _ | ⟨_, ⟨⟩⟩⟩)
  · exact ⟨⟨{ sec := 1, nsec := 2 }, .map [], .map [(.str [0x61], .array [])]⟩, rfl, ⟨⟨by decide, by decide⟩, by decide⟩⟩
  · rfl

private def deepAttempt : Attempt := ⟨.append .body key :: List.replicate 31 (.beginArray .body), true⟩

theorem deep_record_lost : ¬ ∀ (format : Format) (attempts : List Attempt),
      (∀ attempt ∈ attempts, if attempt.committed then (contentOf attempt.calls).isSome = true
        else (draftOf attempt.calls).isSome = true) → (events (encode format attempts).output).1.map LogEvent.content =
        (attempts.filterMap Attempt.content).map (fun content => content.seen format) := by
  intro always
  have same := always .forward [deepAttempt] (forall_mem_singleton.mpr rfl)
  have lost : (events (encode .forward [deepAttempt]).output).1.length = 0 := by decide +kernel
  have one : ([deepAttempt].filterMap Attempt.content).length = 1 := by decide +kernel
  have count := congrArg List.length same
  rw [length_map, length_map, lost, one] at count
  cases count

end

end FluentBit.Event
