import FluentBit.InMqtt.Connection

/-! Where the parts of a PUBLISH packet lie that `mqtt_handle_publish` takes out of the buffer. -/

set_option autoImplicit false

namespace FluentBit.InMqtt

def framedPacket (pos : Nat) (conn : Conn) : Option Conn :=
  if conn.bufLen ≤ conn.bufPos then none
  else if conn.bufLen < conn.bufPos + 2 then none
  else if conn.status = .new ∧ conn.byteAt conn.bufPos / 16 ≠ 1 then none
  else
    match remainingLength conn pos 4 (conn.bufPos + 1) 1 0 with
    | .found bufPos length => some { conn with bufPos, bufFrameEnd := bufPos + length }
    | _ => none

def behindPacket (conn : Conn) : Conn :=
  mqttPacketDrop { conn with status := .next, bufPos := conn.bufFrameEnd }

/-- The connections for which the loop of `mqtt_prot_parser` calls `mqtt_handle_publish`. -/
def loopPublishes (pos : Nat) : Nat → Conn → List Conn
  | 0, _ => []
  | fuel + 1, conn =>
    match framedPacket pos conn with
    | none => []
    | some packet =>
      let type := conn.byteAt conn.bufPos / 16
      (if type = 3 then [packet] else []) ++
        match handle packet type with
        | none | some .disconnect => []
        | some _ => if 0 < (behindPacket packet).bufLen then loopPublishes pos fuel (behindPacket packet) else []

def publishes (incoming : Bytes) (session : Session) : List Conn :=
  if session.closed ∨ arriving session incoming = [] then []
  else
    let conn := session.conn.received (arriving session incoming)
    loopPublishes conn.bufPos (conn.bufLen + 1) conn

def Handled.isPublish : Handled → Bool
  | .publish _ _ _ _ => true
  | _ => false

variable {conn packet : Conn} {pos fuel : Nat}

theorem mqttHandlePublish_isPublish {handled : Handled} (handles : mqttHandlePublish conn = some handled) :
    handled.isPublish = true := by
  unfold mqttHandlePublish at handles
  simp only at handles
  split_ifs at handles <;> cases handles <;> rfl

theorem filterMap_call (type : Nat) :
    (if type = 3 then [conn] else []).filterMap mqttHandlePublish = (handle conn type).toList.filter Handled.isPublish := by
  by_cases publish : type = 3
  · subst publish
    have same : handle conn 3 = mqttHandlePublish conn := rfl
    rw [same]
    cases handles : mqttHandlePublish conn with
    | none => simp [handles]
    | some handled => simp [handles, mqttHandlePublish_isPublish handles]
  · rw [if_neg publish]
    unfold handle
    split_ifs <;> rfl

theorem parserLoop_publishes :
    (parserLoop pos fuel conn).2.1.filter Handled.isPublish = (loopPublishes pos fuel conn).filterMap mqttHandlePublish := by
  induction fuel generalizing conn with
  | zero => rfl
  | succ fuel ih =>
    unfold parserLoop loopPublishes framedPacket
    by_cases ended : conn.bufLen ≤ conn.bufPos
    · simp [ended]
    by_cases short : conn.bufLen < conn.bufPos + 2
    · simp [ended, short]
    by_cases first : conn.status = .new ∧ conn.byteAt conn.bufPos / 16 ≠ 1
    · simp [ended, short, first]
    simp only [if_neg ended, if_neg short, if_neg first]
    cases remainingLength conn pos 4 (conn.bufPos + 1) 1 0 with
    | more => rfl
    | error => rfl
    | found bufPos length =>
      generalize conn.byteAt conn.bufPos / 16 = type
      simp only
      rw [List.filterMap_append, filterMap_call]
      cases handle { conn with bufPos, bufFrameEnd := bufPos + length } type with
      | none => rfl
      | some handled =>
        have later := @ih (behindPacket { conn with bufPos, bufFrameEnd := bufPos + length })
        unfold behindPacket at later ⊢
        cases handled <;> simp only <;> try split
        all_goals simp [List.filter_cons, Handled.isPublish, later]

def Conn.topicLength (conn : Conn) : Nat := conn.byteAt (conn.bufPos + 1) * 256 + conn.byteAt (conn.bufPos + 2)

def Conn.qos (conn : Conn) : Nat := conn.byteAt 0 / 2 % 4

def Conn.topicEnd (conn : Conn) : Nat := conn.bufPos + 3 + conn.topicLength

def Conn.payload (conn : Conn) : Nat := if conn.qos = 0 then conn.topicEnd else conn.topicEnd + 2

/-- The length that `mqtt_data_append` gets. -/
def Conn.payloadLength (conn : Conn) : Int := conn.bufFrameEnd - conn.payload + 1

structure InFrame (conn : Conn) : Prop where
  topic : conn.topicEnd ≤ conn.bufFrameEnd + 1
  packetId : conn.payload ≤ conn.bufFrameEnd + 1
  payloadLength : 0 ≤ conn.payloadLength
  frame : conn.bufFrameEnd < conn.bufLen

/-- The remaining length has one byte or the last byte of the packet was read, and it covers the
topic and the identifier. -/
def WellSized (conn : Conn) : Prop :=
  (conn.bufPos = 1 ∨ conn.bufFrameEnd < conn.bufLen) ∧
    2 + conn.topicLength + (if conn.qos = 0 then 0 else 2) ≤ conn.bufFrameEnd - conn.bufPos

theorem remainingLength_found {start mult length bufPos total : Nat}
    (found : remainingLength conn pos fuel start mult length = .found bufPos total) :
    start ≤ bufPos ∧ total + 2 ≤ conn.bufLen := by
  induction fuel generalizing start mult length with
  | zero => cases found
  | succ fuel ih =>
    unfold remainingLength at found
    simp only at found
    split_ifs at found
    · cases found
      omega
    · have later := ih found
      omega

section

variable (start : conn.bufPos = 0) (framed : framedPacket pos conn = some packet)
include start framed

theorem framedPacket_spec : 1 ≤ packet.bufPos ∧ packet.bufPos ≤ packet.bufFrameEnd ∧
      packet.bufFrameEnd - packet.bufPos + 2 ≤ packet.bufLen := by
  unfold framedPacket at framed
  split_ifs at framed
  cases found : remainingLength conn pos 4 (conn.bufPos + 1) 1 0 with
  | more | error => simp [found] at framed
  | found bufPos length =>
    have bounds := remainingLength_found found
    rw [found] at framed
    obtain rfl := Option.some.inj framed
    simp only
    omega

theorem inFrame_iff_wellSized : InFrame packet ↔ WellSized packet := by
  obtain ⟨first, frame, fits⟩ := framedPacket_spec start framed
  constructor
  · intro inside
    have within := inside.packetId
    refine ⟨.inr inside.frame, ?_⟩
    unfold Conn.payload Conn.topicEnd at within
    split at within <;> simp only [*, if_true, if_false] <;> omega
  · rintro ⟨whole, covers⟩
    have within : packet.payload ≤ packet.bufFrameEnd + 1 := by
      unfold Conn.payload Conn.topicEnd
      split at covers <;> simp only [*, if_true, if_false] <;> omega
    have topic : packet.topicEnd ≤ packet.payload := by
      unfold Conn.payload
      split <;> omega
    refine ⟨by omega, within, ?_, by omega⟩
    unfold Conn.payloadLength
    omega

end

theorem mqttPacketDrop_bufPos : (mqttPacketDrop conn).bufPos = 0 := by
  unfold mqttPacketDrop
  split <;> rfl

theorem loopPublishes_framed (start : conn.bufPos = 0) (called : packet ∈ loopPublishes pos fuel conn) :
    ∃ head : Conn, head.bufPos = 0 ∧ framedPacket pos head = some packet := by
  induction fuel generalizing conn with
  | zero => cases called
  | succ fuel ih =>
    unfold loopPublishes at called
    split at called
    · cases called
    · rename_i framed found
      obtain here | later := List.mem_append.mp called
      · split at here
        · rw [List.mem_singleton.mp here]
          exact ⟨conn, start, found⟩
        · cases here
      · split at later
        · cases later
        · cases later
        · split at later
          · exact ih mqttPacketDrop_bufPos later
          · cases later

theorem parserLoop_bufPos (start : conn.bufPos = 0) :
    (parserLoop 0 fuel conn).1 = .error ∨ (parserLoop 0 fuel conn).1 = .hangup ∨
      (parserLoop 0 fuel conn).2.2.bufPos = 0 := by
  induction fuel generalizing conn with
  | zero => exact .inr (.inr start)
  | succ fuel ih =>
    unfold parserLoop
    split
    · simp [start]
    split
    · exact .inr (.inr rfl)
    simp only
    split
    · exact .inl rfl
    cases remainingLength conn 0 4 (conn.bufPos + 1) 1 0 with
    | more => exact .inr (.inr rfl)
    | error => exact .inl rfl
    | found bufPos length =>
      simp only
      split
      · exact .inl rfl
      · exact .inr (.inl rfl)
      · split
        · exact ih mqttPacketDrop_bufPos
        · exact .inr (.inr mqttPacketDrop_bufPos)

theorem mqttConnEvent_bufPos {incoming : Bytes} {session : Session} (live : session.closed = true ∨ session.conn.bufPos = 0) :
    (mqttConnEvent incoming session).closed = true ∨ (mqttConnEvent incoming session).conn.bufPos = 0 := by
  unfold mqttConnEvent
  split
  · exact live
  · split
    · exact .inl rfl
    · rename_i running _
      have start : (session.conn.received (arriving session incoming)).bufPos = 0 := live.resolve_left running
      generalize session.conn.received (arriving session incoming) = conn at start ⊢
      unfold mqttProtParser
      rw [start]
      obtain error | hangup | zero := @parserLoop_bufPos conn (conn.bufLen + 1) start
      · exact .inl (by simp [error])
      · exact .inl (by simp [hangup])
      · exact .inr zero

/-- After any reads, the publishes handled in the next stay in their frames, if and only if all are well sized. -/
theorem publishes_inFrame_iff (bufferSize : Nat) (past : List Bytes) (incoming : Bytes) :
    (∀ conn ∈ publishes incoming (Runs.after mqttConnEvent (opened bufferSize) past),
      mqttHandlePublish conn ≠ none → InFrame conn) ↔
    ∀ conn ∈ publishes incoming (Runs.after mqttConnEvent (opened bufferSize) past),
      mqttHandlePublish conn ≠ none → WellSized conn := by
  have path := @Runs.path_after _ _ mqttConnEvent Runs.anyEvent (opened bufferSize) past
    (Runs.admits_of_forall (fun _ _ => trivial) (opened bufferSize) past)
  have start := path.invariant (fun session => session.closed = true ∨ session.conn.bufPos = 0) (.inr rfl)
    (fun _ _ before _ => mqttConnEvent_bufPos before)
  generalize Runs.after mqttConnEvent (opened bufferSize) past = session at start ⊢
  refine forall₂_congr fun conn called => forall_congr' fun _ => ?_
  unfold publishes at called
  split at called
  · cases called
  · rename_i running
    have zero : (session.conn.received (arriving session incoming)).bufPos = 0 :=
      start.resolve_left (not_or.mp running).1
    obtain ⟨head, first, framed⟩ := loopPublishes_framed zero called
    exact inFrame_iff_wellSized first framed

/-- A CONNECT packet, and a PUBLISH packet of two bytes whose topic would have three. -/
theorem publishes_topic_outside :
    ¬ ∀ conn ∈ publishes [0x10, 0, 0x30, 2, 0, 3, 0x61, 0x62, 0x63] (Runs.after mqttConnEvent (opened 16) []),
      mqttHandlePublish conn ≠ none → InFrame conn := by
  intro inside
  have negative : (publishes [0x10, 0, 0x30, 2, 0, 3, 0x61, 0x62, 0x63] (opened 16)).any (fun conn =>
      (mqttHandlePublish conn).isSome && decide (conn.payloadLength < 0)) = true := by decide +kernel
  obtain ⟨conn, called, outside⟩ := List.any_eq_true.mp negative
  obtain ⟨accepted, below⟩ := Bool.and_eq_true_iff.mp outside
  have above := (inside conn called (Option.isSome_iff_ne_none.mp accepted)).payloadLength
  have less := of_decide_eq_true below
  omega

end FluentBit.InMqtt
