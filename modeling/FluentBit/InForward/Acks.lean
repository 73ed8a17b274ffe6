import FluentBit.Foundation.Runs
import FluentBit.InForward.Connection

/-! The acks of the forward input. In packed forward mode a message is acked once all of it was
appended. In the other modes the ack is sent whatever became of the records. -/

set_option autoImplicit false

namespace FluentBit.InForward

open List Option Runs
open Msgpack (Object)

def recordCount (input : Input) : Object → Nat
  | .array (.str _ :: .array entries :: _) => entries.length
  | .array (.str _ :: .str data :: more) | .array (.str _ :: .bin data :: more) =>
    if isGzipCompressed (more.head?.getD input.beyond) = some true then (gzipPayloads data).length else 1
  | _ => 1

structure Appended (start count : Nat) (effects : List Effect) : Prop where
  each : ∀ position, start ≤ position → position < start + count →
    ∃ type tag data, .append type position tag data true ∈ effects
  noFailure : ∀ type position tag data, .append type position tag data false ∉ effects

def Truthful (input : Input) (root : Object) (effects : List Effect) : Prop :=
  (∃ chunk, .ack chunk ∈ effects) → Appended 0 (recordCount input root) effects

section

variable (input : Input)

def Deliverable (tag : Bytes) : List Effect → Nat → List Object → Prop
  | _, _, [] => True
  | history, position, entry :: entries =>
    ∃ event data, Event.decodeObject entry = .ok event ∧
      input.encode history event.timestamp (some event.metadata) event.body = some data ∧
      input.appends history .logs tag data = true ∧
      Deliverable tag (history ++ [.append .logs position tag data true]) (position + 1) entries

def RecordDeliverable (history : List Effect) (tag : Bytes) (ts : Object) (metadata : Option Object) (body : Object) :
    Prop :=
  ∃ timestamp data, Event.decodeTimestamp ts = .ok timestamp ∧ input.encode history timestamp metadata body = some data ∧
    input.appends history .logs tag data = true

/-- A message that is in packed forward mode, or does not get to the ack, or whose records can all
be delivered. -/
def Meets (history : List Effect) : Object → Prop
  | .array (.str stag :: entry :: more) =>
    let root := .str stag :: entry :: more
    match entry with
    | .array entries =>
      ∀ chunk, getOptionsChunk root 2 = some (some chunk) → Deliverable input (input.outTag stag) history 0 entries
    | .positive _ | .ext _ _ =>
      ∀ chunk metadata, Event.isMap (root[2]?.getD input.beyond) = true →
        getOptionsChunk root 3 = some (some chunk) → getOptionsMetadata root 3 = some metadata →
        RecordDeliverable input history (input.outTag stag) entry metadata (root[2]?.getD input.beyond)
    | _ => True
  | _ => True

end

variable {type : EventType} {position : Nat}

section

variable {start count : Nat} {effects : List Effect}

private theorem appended_nil : Appended start count [] ↔ count = 0 := by
  constructor
  · intro appended
    by_contra some
    obtain ⟨_, _, _, inside⟩ := appended.each start (Nat.le_refl _) (by omega)
    cases inside
  · rintro rfl
    constructor
    · intro position low high
      omega
    · intro _ _ _ _ inside
      cases inside

variable {tag data : Bytes} {chunk : Option Object}

private theorem not_appended_failure : ¬ Appended start count (.append type position tag data false :: effects) :=
  fun appended => appended.noFailure type position tag data mem_cons_self

private theorem appended_cons :
    Appended start (count + 1) (.append type start tag data true :: effects) ↔ Appended (start + 1) count effects := by
  constructor
  · intro appended
    constructor
    · intro position low high
      obtain ⟨_, _, _, inside⟩ := appended.each position (by omega) (by omega)
      rcases mem_cons.mp inside with first | later
      · cases first
        omega
      · exact ⟨_, _, _, later⟩
    · intro _ _ _ _ inside
      exact appended.noFailure _ _ _ _ (mem_cons_of_mem _ inside)
  · intro appended
    constructor
    · intro position low high
      by_cases first : position = start
      · subst first
        exact ⟨_, _, _, mem_cons_self⟩
      · obtain ⟨_, _, _, inside⟩ := appended.each position (by omega) (by omega)
        exact ⟨_, _, _, mem_cons_of_mem _ inside⟩
    · intro _ _ _ _ inside
      rcases mem_cons.mp inside with first | later
      · cases first
      · exact appended.noFailure _ _ _ _ later

private theorem append_mem_acks {success : Bool} : .append type position tag data success ∈ effects ++ acks chunk ↔
      .append type position tag data success ∈ effects := by
  cases chunk with
  | none => simp [acks]
  | some chunk => simp [acks]

private theorem appended_acks : Appended start count (effects ++ acks chunk) ↔ Appended start count effects := by
  constructor
  · intro appended
    constructor
    · intro position low high
      obtain ⟨_, _, _, inside⟩ := appended.each position low high
      exact ⟨_, _, _, append_mem_acks.mp inside⟩
    · intro _ _ _ _ inside
      exact appended.noFailure _ _ _ _ (append_mem_acks.mpr inside)
  · intro appended
    constructor
    · intro position low high
      obtain ⟨_, _, _, inside⟩ := appended.each position low high
      exact ⟨_, _, _, append_mem_acks.mpr inside⟩
    · intro _ _ _ _ inside
      exact appended.noFailure _ _ _ _ (append_mem_acks.mp inside)

end

/-! ### One message -/

section

variable {input : Input} {history : List Effect} {tag : Bytes}

private theorem appended_processArray (start : Nat) (entries : List Object) :
    Appended start entries.length (processArray input tag history start entries) ↔
      Deliverable input tag history start entries := by
  induction entries generalizing history start with
  | nil => exact ⟨fun _ => trivial, fun _ => appended_nil.mpr rfl⟩
  | cons entry entries ih =>
    have stops : Appended start (entry :: entries).length [] ↔ False := by
      rw [appended_nil, length_cons]
      simp
    rw [processArray, fwProcessForwardModeEntry, Deliverable]
    cases decoded : Event.decodeObject entry with
    | error result =>
      simp only [stops, false_iff, not_exists]
      rintro _ _ ⟨impossible, _⟩
      cases impossible
    | ok event =>
      cases encoded : input.encode history event.timestamp (some event.metadata) event.body with
      | none =>
        simp only [encoded, map_none, stops, false_iff, not_exists]
        rintro _ _ ⟨same, impossible, _⟩
        cases same
        rw [encoded] at impossible
        cases impossible
      | some data =>
        simp only [encoded, map_some, Input.appendRecord, length_cons]
        cases success : input.appends history .logs tag data with
        | false =>
          constructor
          · intro appended
            exact absurd appended not_appended_failure
          · rintro ⟨_, _, same, stored, impossible, _⟩
            cases same
            rw [encoded] at stored
            cases stored
            rw [success] at impossible
            cases impossible
        | true =>
          rw [appended_cons, ih]
          constructor
          · intro later
            exact ⟨event, data, rfl, encoded, success, later⟩
          · rintro ⟨_, _, same, stored, _, later⟩
            cases same
            rw [encoded] at stored
            cases stored
            exact later

variable {metadata : Option Object} {ts body chunk root : Object} {more entries : List Object} {stag : Bytes}

private theorem appended_messageModeEntry :
    Appended 0 1 (fwProcessMessageModeEntry input history tag ts metadata body) ↔
      RecordDeliverable input history tag ts metadata body := by
  have stops : Appended 0 1 [] ↔ False := by simp [appended_nil]
  unfold fwProcessMessageModeEntry RecordDeliverable
  cases decoded : Event.decodeTimestamp ts with
  | error result =>
    simp only [stops, false_iff, not_exists]
    rintro _ _ ⟨impossible, _⟩
    cases impossible
  | ok timestamp =>
    cases encoded : input.encode history timestamp metadata body with
    | none =>
      simp only [encoded, map_none, toList_none, stops, false_iff, not_exists]
      rintro _ _ ⟨same, impossible, _⟩
      cases same
      rw [encoded] at impossible
      cases impossible
    | some data =>
      simp only [encoded, map_some, toList_some, Input.appendRecord]
      cases success : input.appends history .logs tag data with
      | false =>
        constructor
        · intro appended
          exact absurd appended not_appended_failure
        · rintro ⟨_, _, same, stored, impossible⟩
          cases same
          rw [encoded] at stored
          cases stored
          rw [success] at impossible
          cases impossible
      | true =>
        constructor
        · intro _
          exact ⟨timestamp, data, rfl, encoded, success⟩
        · intro _
          exact appended_cons.mpr (appended_nil.mpr rfl)

private theorem appendLog_accepted {data : Bytes}
    (accepted : (appendLog input history type position tag data).accepted = true) :
    (appendLog input history type position tag data).effects = [.append type position tag data true] := by
  unfold appendLog at accepted ⊢
  split at accepted
  · cases accepted
  next decoded =>
    rw [if_neg decoded]
    simp only at accepted ⊢
    rw [accepted]

private theorem appended_processPayloads {type : Option EventType} (start : Nat) (payloads : List Bytes)
    (accepted : (processPayloads input tag type history start payloads).accepted = true) :
    Appended start payloads.length (processPayloads input tag type history start payloads).effects := by
  induction payloads generalizing history start type with
  | nil => exact appended_nil.mpr rfl
  | cons payload payloads ih =>
    unfold processPayloads at accepted ⊢
    split at accepted
    next data type _ _ =>
      simp only at accepted
      split at accepted
      next first =>
        simp only [first, if_true, appendLog_accepted first, cons_append, nil_append, length_cons] at accepted ⊢
        exact appended_cons.mpr (ih _ accepted)
      next refused =>
        exact absurd accepted refused
    · cases accepted

private theorem appended_processPacked {data : Bytes} {containOptions : Bool} {options : Object}
    (accepted : (processPacked input history tag data containOptions options).accepted = true) :
    Appended 0 (if isGzipCompressed options = some true then (gzipPayloads data).length else 1)
      (processPacked input history tag data containOptions options).effects := by
  unfold processPacked at accepted ⊢
  cases compressed : isGzipCompressed options with
  | none => simp [compressed, Outcome.refused] at accepted
  | some gzip =>
    cases gzip with
    | true =>
      simp only [compressed, if_true] at accepted ⊢
      exact appended_processPayloads 0 _ accepted
    | false =>
      simp only [compressed] at accepted ⊢
      cases known : eventType containOptions options with
      | none => simp [known, Outcome.refused] at accepted
      | some type =>
        simp only [known] at accepted ⊢
        rw [appendLog_accepted accepted]
        exact appended_cons.mpr (appended_nil.mpr rfl)

private theorem ack_not_mem_appendLog {data : Bytes} :
    .ack chunk ∉ (appendLog input history type position tag data).effects := by
  unfold appendLog
  split
  · exact not_mem_nil
  · simp

private theorem ack_not_mem_processPayloads {type : Option EventType} {start : Nat} {payloads : List Bytes} :
    .ack chunk ∉ (processPayloads input tag type history start payloads).effects := by
  induction payloads generalizing history start type with
  | nil => exact not_mem_nil
  | cons payload payloads ih =>
    unfold processPayloads
    split
    · simp only
      split
      · intro inside
        rcases mem_append.mp inside with first | later
        · exact ack_not_mem_appendLog first
        · exact ih later
      · exact ack_not_mem_appendLog
    · exact not_mem_nil

private theorem ack_not_mem_processPacked {data : Bytes} {containOptions : Bool} {options chunk : Object} :
    .ack chunk ∉ (processPacked input history tag data containOptions options).effects := by
  unfold processPacked
  split
  · exact not_mem_nil
  · exact ack_not_mem_processPayloads
  · split
    · exact not_mem_nil
    · exact ack_not_mem_appendLog

private theorem truthful_packedForward {data : Bytes} {entry : Object} {containOptions : Bool}
    (packed : entry = .str data ∨ entry = .bin data) : Truthful input (.array (.str stag :: entry :: more))
      (packedForward input history containOptions tag (.str stag :: entry :: more) entry data).effects := by
  rintro ⟨chunk, acked⟩
  have count : recordCount input (.array (.str stag :: entry :: more)) =
      if isGzipCompressed (more.head?.getD input.beyond) = some true then (gzipPayloads data).length else 1 := by
    rcases packed with rfl | rfl <;> rfl
  have options : (Object.str stag :: entry :: more)[2]? = more.head? := by simp [List.head?_eq_getElem?]
  unfold packedForward at acked ⊢
  split at acked
  · cases acked
  next wanted _ =>
    split at acked
    next data =>
      rw [if_pos data, Outcome.thenAck, options] at *
      split at acked
      next accepted =>
        rw [if_pos accepted, appended_acks, count]
        exact appended_processPacked accepted
      · exact absurd acked ack_not_mem_processPacked
    · cases acked

private theorem ack_not_mem_processArray {start : Nat} : .ack chunk ∉ processArray input tag history start entries := by
  induction entries generalizing history start with
  | nil => exact not_mem_nil
  | cons entry entries ih =>
    unfold processArray
    split
    · exact not_mem_nil
    next effect handled =>
      intro inside
      rcases mem_cons.mp inside with first | later
      · subst first
        unfold fwProcessForwardModeEntry at handled
        split at handled
        · cases handled
        · obtain ⟨data, _, same⟩ := map_eq_some_iff.mp handled
          cases same
      · exact ih later

private theorem ack_not_mem_messageModeEntry :
    .ack chunk ∉ fwProcessMessageModeEntry input history tag ts metadata body := by
  unfold fwProcessMessageModeEntry
  split
  · exact not_mem_nil
  next timestamp _ =>
    cases input.encode history timestamp metadata body with
    | none => exact not_mem_nil
    | some data => simp [Input.appendRecord]

private theorem truthful_acks {effects : List Effect} {wanted : Option Object} (silent : ∀ chunk, .ack chunk ∉ effects)
    :
    Truthful input root (effects ++ acks wanted) ↔
      ∀ chunk, wanted = some chunk → Appended 0 (recordCount input root) effects := by
  unfold Truthful
  rw [appended_acks]
  cases wanted with
  | none =>
    constructor
    · rintro _ _ ⟨⟩
    · rintro _ ⟨chunk, acked⟩
      rw [acks, append_nil] at acked
      exact absurd acked (silent chunk)
  | some wanted =>
    constructor
    · intro truthful _ _
      exact truthful ⟨wanted, by simp [acks]⟩
    · intro appended _
      exact appended wanted rfl

private theorem truthful_refused : Truthful input root Outcome.refused.effects := by
  rintro ⟨_, acked⟩
  cases acked

private theorem truthful_forwardMode : Truthful input (.array (.str stag :: .array entries :: more))
        (forwardMode input history tag (.str stag :: .array entries :: more) entries).effects ↔
      ∀ chunk, getOptionsChunk (.str stag :: .array entries :: more) 2 = some (some chunk) →
        Deliverable input tag history 0 entries := by
  unfold forwardMode
  cases options : getOptionsChunk (.str stag :: .array entries :: more) 2 with
  | none =>
    constructor
    · rintro _ _ ⟨⟩
    · intro _
      exact truthful_refused
  | some wanted =>
    simp [truthful_acks fun _ => ack_not_mem_processArray, recordCount, appended_processArray]

private theorem truthful_messageMode (one : recordCount input (.array (.str stag :: ts :: more)) = 1) :
    Truthful input (.array (.str stag :: ts :: more))
        (messageMode input history tag (.str stag :: ts :: more) ts).effects ↔
      ∀ chunk metadata, Event.isMap ((Object.str stag :: ts :: more)[2]?.getD input.beyond) = true →
        getOptionsChunk (.str stag :: ts :: more) 3 = some (some chunk) →
        getOptionsMetadata (.str stag :: ts :: more) 3 = some metadata →
        RecordDeliverable input history tag ts metadata ((Object.str stag :: ts :: more)[2]?.getD input.beyond) := by
  unfold messageMode
  generalize (Object.str stag :: ts :: more)[2]?.getD input.beyond = body
  cases isMap : Event.isMap body with
  | false =>
    constructor
    · rintro _ _ _ ⟨⟩
    · intro _
      exact truthful_refused
  | true =>
    cases getOptionsChunk (.str stag :: ts :: more) 3 with
    | none =>
      constructor
      · rintro _ _ _ _ ⟨⟩
      · intro _
        exact truthful_refused
    | some wanted =>
      cases getOptionsMetadata (.str stag :: ts :: more) 3 with
      | none =>
        constructor
        · rintro _ _ _ _ _ ⟨⟩
        · intro _
          exact truthful_refused
      | some metadata =>
        simp only [Bool.not_true, Bool.false_eq_true, if_false,
          truthful_acks fun _ => ack_not_mem_messageModeEntry, one, appended_messageModeEntry, Option.some.injEq]
        constructor
        · rintro delivered chunk _ _ asked rfl
          exact delivered chunk asked
        · intro delivered chunk asked
          exact delivered chunk metadata trivial asked rfl

private theorem truthful_processRoot (containOptions : Bool) :
    Truthful input root (processRoot input history containOptions root).effects ↔ Meets input history root := by
  unfold processRoot Meets
  split
  next stag entry more =>
    cases entry with
    | array entries => exact truthful_forwardMode
    | positive u64 | ext type data => exact truthful_messageMode rfl
    | str data => exact iff_of_true (truthful_packedForward (.inl rfl)) trivial
    | bin data => exact iff_of_true (truthful_packedForward (.inr rfl)) trivial
    | _ => exact iff_of_true truthful_refused trivial
  next other =>
    apply iff_of_true truthful_refused
    cases root with
    | array items =>
      cases items with
      | nil => trivial
      | cons first later =>
        cases first with
        | str stag =>
          cases later with
          | nil => trivial
          | cons entry more => exact absurd rfl (other stag entry more)
        | _ => trivial
    | _ => trivial

end

/-! ### Runs -/

/-- What is known of a message that was handled: its outcome is the one that `fw_prot_process` gives. -/
def Faithful (input : Input) (message : Handled) : Prop :=
  message.outcome = processRoot input message.history message.containOptions message.root

section

variable {input : Input}

private theorem handleMessage_faithful {root : Object} {world : World}
    (faithful : ∀ message ∈ world.handled, Faithful input message) :
    ∀ message ∈ (handleMessage input root world).1.handled, Faithful input message := by
  intro message inside
  rcases mem_append.mp inside with old | new
  · exact faithful message old
  · cases mem_singleton.mp new
    rfl

section

variable {σ : Type} {handle : Object → σ → σ × Bool} {holds : σ → Prop} {allUsed : Nat} {held : Bytes} {world : σ}

private theorem handleObjects_preserves (step : ∀ root world, holds world → holds (handle root world).1)
    {bytes fuel : Nat}
    {root : Object} (start : holds world) : holds (handleObjects handle bytes fuel root held allUsed world).world := by
  induction fuel generalizing root held allUsed world with
  | zero => exact start
  | succ fuel ih =>
    unfold handleObjects
    have next := step root world start
    revert next
    rcases handle root world with ⟨world, accepted⟩
    intro next
    cases accepted with
    | false => exact next
    | true =>
      simp only
      split
      · exact ih next
      · exact next

private theorem processFeed_preserves (step : ∀ root world, holds world → holds (handle root world).1) {feed : Bytes}
    (start : holds world) : holds (processFeed handle feed held allUsed world).world := by
  unfold processFeed
  split
  · exact start
  · exact start
  · exact handleObjects_preserves step start

private theorem processFeeds_preserves (step : ∀ root world, holds world → holds (handle root world).1) {fuel : Nat}
    {rest : Bytes}
    (start : holds world) : holds (processFeeds handle fuel rest held allUsed world).world := by
  induction fuel generalizing rest held allUsed world with
  | zero => exact start
  | succ fuel ih =>
    unfold processFeeds
    split
    · exact start
    · have next := @processFeed_preserves σ handle holds allUsed held world step (rest.take eachRecvSize) start
      split
      next fed => rw [fed] at next; exact next
      next fed => rw [fed] at next; exact ih next

end

private theorem fwProtProcess_faithful {buf : Bytes} {handled : List Handled}
    (faithful : ∀ message ∈ handled, Faithful input message) :
    ∀ message ∈ (fwProtProcess input buf handled).2, Faithful input message := by
  have all := @processFeeds_preserves World (handleMessage input) (fun world => ∀ message ∈ world.handled, Faithful input message)
    0 [] { handled, containOptions := false } (fun _ _ => handleMessage_faithful) (buf.length + 1) buf faithful
  unfold fwProtProcess processBuffer
  split
  next shape =>
    split at shape
    next fed => cases shape; rw [fed] at all; exact all
    next fed => cases shape; rw [fed] at all; exact all

private theorem path_faithful {session : Session} (path : Runs.Path (fwConnEvent input) anyEvent (opened input) session)
    :
    ∀ message ∈ session.handled, Faithful input message := by
  apply path.invariant fun session => ∀ message ∈ session.handled, Faithful input message
  · intro message inside
    cases inside
  · intro session incoming faithful _
    rcases event_cases input incoming session with ⟨_, same, _⟩ | ⟨_, _, _, same, _⟩
    · rw [same]
      exact faithful
    · rw [same]
      exact fwProtProcess_faithful faithful

end

section

private def sampleInput (success : Bool) : Input where
  tagPrefix := none
  tag := none
  tagDefault := true
  bufferChunkSize := 64
  bufferMaxSize := 64
  encode := fun _ _ _ _ => some []
  decodes := fun _ _ => true
  appends := fun _ _ _ _ => success
  uncompress := some
  beyond := .nil
  nullText := fun _ => false

/-- `["a", [[1, {}]], {"chunk": "x"}]` -/
private def sampleRoot : Object :=
  .array [.str [0x61], .array [.array [.positive 1, .map []]], .map [(.str [0x63, 0x68, 0x75, 0x6e, 0x6b], .str [0x78])]]

private def sampleBytes : Bytes :=
  [0x93, 0xa1, 0x61, 0x91, 0x92, 0x01, 0x80, 0x81, 0xa5, 0x63, 0x68, 0x75, 0x6e, 0x6b, 0xa1, 0x78]

private def sampleSession (success : Bool) : Session :=
  Runs.after (fwConnEvent (sampleInput success)) (opened (sampleInput success)) [sampleBytes]

private theorem sampleSession_handled (success : Bool) : (sampleSession success).handled =
      [{ history := [], containOptions := true, root := sampleRoot,
         outcome := { effects := [.append .logs 0 [0x61] [] success, .ack (.str [0x78])], accepted := true } }] := by
  cases success <;> rfl

private theorem sampleSession_path (success : Bool) :
    Runs.Path (fwConnEvent (sampleInput success)) anyEvent (opened (sampleInput success)) (sampleSession success) :=
  reached _ _ _

end

end FluentBit.InForward
