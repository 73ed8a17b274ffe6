import FluentBit.InMqtt.Connection
import Mathlib.Data.List.GetD

/-! Control packets in a stream. The packets that are handled are those whose bytes were all read,
unless a read ends one or two bytes before a packet that has its remaining length in as many bytes
more than one: these are taken as complete. -/

set_option autoImplicit false

namespace FluentBit.InMqtt

open List Nat Runs

structure Packet where
  header : UInt8
  field : Bytes
  body : Bytes

namespace Packet

def bytes (packet : Packet) : Bytes := packet.header :: (packet.field ++ packet.body)

def type (packet : Packet) : Nat := packet.header.toNat / 16

def qos (packet : Packet) : Nat := packet.header.toNat / 2 % 4

def isField : Bytes → Bool
  | [] => false
  | [byte] => byte.toNat < 128
  | byte :: rest => 128 ≤ byte.toNat && isField rest

def fieldValue : Bytes → Nat
  | [] => 0
  | byte :: rest => byte.toNat % 128 + 128 * fieldValue rest

def wordAt (packet : Packet) (pos : Nat) : Nat :=
  (packet.body.getD pos 0).toNat * 256 + (packet.body.getD (pos + 1) 0).toNat

def payloadStart (packet : Packet) : Nat := 2 + packet.wordAt 0 + if packet.qos = 0 then 0 else 2

structure WellFormed (packet : Packet) : Prop where
  field : isField packet.field = true
  short : packet.field.length ≤ 3
  length : fieldValue packet.field = packet.body.length
  message : packet.type = 3 → packet.payloadStart ≤ packet.body.length

def handled (packet : Packet) : Handled :=
  if packet.type = 1 then .connect
  else if packet.type = 3 then
    .publish packet.qos (if packet.qos = 0 then none else some (packet.wordAt (2 + packet.wordAt 0)))
      ((packet.body.drop 2).take (packet.wordAt 0)) (packet.body.drop packet.payloadStart)
  else if packet.type = 12 then .ping
  else if packet.type = 14 then .disconnect
  else .ignored packet.type

end Packet

def complete : List Packet → Nat → List Packet
  | [], _ => []
  | packet :: later, read =>
    if packet.bytes.length ≤ read then packet :: complete later (read - packet.bytes.length) else []

def Settled : List Packet → Nat → Prop
  | [], _ => True
  | packet :: later, read =>
    if packet.bytes.length ≤ read then Settled later (read - packet.bytes.length)
    else read < max (packet.field.length + 1) (packet.body.length + 2)

instance decidableSettled : ∀ packets read, Decidable (Settled packets read)
  | [], _ => .isTrue trivial
  | packet :: later, read =>
    have := decidableSettled later (read - packet.bytes.length)
    inferInstanceAs (Decidable (if packet.bytes.length ≤ read then Settled later (read - packet.bytes.length)
      else read < max (packet.field.length + 1) (packet.body.length + 2)))

structure Sequence (bufferSize : Nat) (packets : List Packet) : Prop where
  each : ∀ packet ∈ packets, packet.WellFormed ∧ packet.bytes.length ≤ bufferSize
  starts : ∀ packet ∈ packets.head?, packet.type = 1
  ends : ∀ packet ∈ packets.dropLast, packet.type ≠ 14

def ReadsSettled (packets : List Packet) (session : Session) (incoming : Bytes) : Prop :=
  session.closed = false → arriving session incoming ≠ [] →
    Settled packets (session.stream ++ arriving session incoming).length

/-! ### One packet -/

def Conn.unread (conn : Conn) : Bytes := conn.buf.take conn.bufLen

section

variable {conn : Conn} {packet : Packet} {rest : Bytes}
variable {pos index : Nat}

theorem byteAt_unread (inside : pos < conn.bufLen) : conn.byteAt pos = (conn.unread.getD pos 0).toNat := by
  rw [Conn.byteAt, Conn.unread, getD_eq_getElem?_getD, getD_eq_getElem?_getD, List.getElem?_take_of_lt inside]

theorem remainingLength_field {field : Bytes} {fuel bufPos digits length : Nat} (isField : Packet.isField field = true)
    (short : digits + field.length ≤ 3) (enough : field.length ≤ fuel)
    (reads : ∀ index, index < field.length → bufPos + index < conn.bufLen →
      conn.byteAt (bufPos + index) = (field.getD index 0).toNat) :
    remainingLength conn 0 fuel bufPos (128 ^ digits) length =
      if conn.bufLen < max (bufPos + field.length) (length + 128 ^ digits * Packet.fieldValue field + 2) then .more
      else .found (bufPos + field.length - 1) (length + 128 ^ digits * Packet.fieldValue field) := by
  induction field generalizing fuel bufPos digits length with
  | nil => cases isField
  | cons byte field ih =>
    cases fuel with
    | zero => simp at enough
    | succ fuel =>
      rw [length_cons] at short enough
      have next : 128 ^ digits * 128 = 128 ^ (digits + 1) := rfl
      have small : ¬ 128 * 128 * 128 < 128 ^ (digits + 1) := by
        have bound : 128 ^ (digits + 1) ≤ 128 ^ 3 := Nat.pow_le_pow_right (by omega) (by omega)
        omega
      rw [remainingLength]
      by_cases present : conn.bufLen < bufPos + 1
      · rw [if_pos present, if_pos]
        rw [length_cons]
        omega
      · have here : conn.byteAt bufPos = byte.toNat := reads 0 (by simp) (by omega)
        simp only [present, if_false, small, here, Nat.add_zero, next]
        have value : Packet.fieldValue (byte :: field) = byte.toNat % 128 + 128 * Packet.fieldValue field := rfl
        have total : length + 128 ^ digits * Packet.fieldValue (byte :: field) =
            length + byte.toNat % 128 * 128 ^ digits + 128 ^ (digits + 1) * Packet.fieldValue field := by
          rw [value, Nat.pow_succ]
          ring
        rw [total, length_cons]
        cases field with
        | nil =>
          have last : byte.toNat < 128 := by simpa [Packet.isField] using isField
          have none : Packet.fieldValue [] = 0 := rfl
          rw [none, mul_zero, Nat.add_zero, length_nil, if_pos last]
          by_cases far : conn.bufLen < length + byte.toNat % 128 * 128 ^ digits + 2
          · rw [if_pos far, if_pos (by omega)]
          · rw [if_neg far, if_neg far, if_neg (by omega)]
            rfl
        | cons other field =>
          obtain ⟨goes, isField⟩ : 128 ≤ byte.toNat ∧ Packet.isField (other :: field) = true := by
            simpa [Packet.isField] using isField
          have shifted : ∀ index, index < (other :: field).length → bufPos + 1 + index < conn.bufLen →
              conn.byteAt (bufPos + 1 + index) = ((other :: field).getD index 0).toNat := by
            intro index inside there
            have read := reads (index + 1) (by simpa using inside) (by omega)
            rw [Nat.add_assoc, Nat.add_comm 1, read]
            rfl
          have later := @ih fuel (bufPos + 1) (digits + 1) (length + byte.toNat % 128 * 128 ^ digits) isField
            (by omega) (by omega) shifted
          rw [later, length_cons]
          rw [if_neg (Nat.not_lt.mpr goes)]
          split
          · rw [if_pos (by omega)]
          · split
            · have place : bufPos + 1 + (field.length + 1) = bufPos + (field.length + 1 + 1) := by omega
              rw [place]
            · rw [if_pos (by omega)]

theorem length_unread (fits : conn.bufLen ≤ conn.buf.length) : conn.unread.length = conn.bufLen := by
  rw [Conn.unread, length_take]
  omega

theorem byteAt_text {text : Bytes} (fits : conn.bufLen ≤ conn.buf.length) (starts : conn.unread <+: text)
    (inside : pos < conn.bufLen) : conn.byteAt pos = (text.getD pos 0).toNat := by
  obtain ⟨more, rfl⟩ := starts
  rw [byteAt_unread inside, getD_append _ _ _ _ (by rw [length_unread fits]; exact inside)]

theorem slice_unread {length : Nat} (inside : pos + length ≤ conn.bufLen) :
    conn.slice pos length = (conn.unread.drop pos).take length := by
  rw [Conn.slice, Conn.unread, drop_take, take_take, Nat.min_eq_left (by omega)]

theorem bytes_length : packet.bytes.length = packet.field.length + packet.body.length + 1 := by
  simp [Packet.bytes]

theorem getD_field (inside : index < packet.field.length) (more : Bytes) :
    (packet.bytes ++ more).getD (1 + index) 0 = packet.field.getD index 0 := by
  rw [Nat.add_comm, Packet.bytes, cons_append, getD_cons_succ, append_assoc, getD_append _ _ _ _ inside]

theorem getD_body (inside : index < packet.body.length) (more : Bytes) :
    (packet.bytes ++ more).getD (packet.field.length + 1 + index) 0 = packet.body.getD index 0 := by
  have place : packet.field.length + 1 + index = packet.field.length + index + 1 := by omega
  rw [place, Packet.bytes, cons_append, getD_cons_succ, append_assoc, getD_append_right _ _ _ _ (by omega),
    Nat.add_sub_cancel_left, getD_append _ _ _ _ inside]

theorem drop_body (inside : index ≤ packet.body.length) (more : Bytes) :
    (packet.bytes ++ more).drop (packet.field.length + 1 + index) = packet.body.drop index ++ more := by
  have place : packet.field.length + 1 + index = packet.field.length + index + 1 := by omega
  rw [place, Packet.bytes, cons_append, drop_succ_cons, append_assoc, ← drop_drop, drop_left,
    drop_append_of_le_length inside]

theorem remainingLength_packet (wellFormed : packet.WellFormed) (fits : conn.bufLen ≤ conn.buf.length)
    (starts : conn.unread <+: packet.bytes ++ rest) : remainingLength conn 0 4 1 1 0 =
      if conn.bufLen < max (packet.field.length + 1) (packet.body.length + 2) then .more
      else .found packet.field.length packet.body.length := by
  have short := wellFormed.short
  have found := @remainingLength_field conn packet.field 4 1 0 0 wellFormed.field (by omega) (by omega) (by
    intro index inside there
    rw [byteAt_text fits starts there, getD_field inside])
  rw [Nat.pow_zero, Nat.one_mul, Nat.zero_add, wellFormed.length] at found
  rw [found, Nat.add_comm 1, Nat.add_sub_cancel]

theorem handle_packet (wellFormed : packet.WellFormed) (fits : conn.bufLen ≤ conn.buf.length)
    (whole : conn.unread = packet.bytes ++ rest) (pos : conn.bufPos = packet.field.length)
    (frame : conn.bufFrameEnd = packet.field.length + packet.body.length) :
    handle conn packet.type = some packet.handled := by
  have length := length_unread fits
  rw [whole, length_append, bytes_length] at length
  have starts : conn.unread <+: packet.bytes ++ rest := whole ▸ prefix_rfl
  unfold handle Packet.handled
  split
  · rfl
  · split
    next isMessage =>
      -- a message: its topic, its identifier and its payload are read from the body
      have room := wellFormed.message isMessage
      have header : conn.byteAt 0 = packet.header.toNat := byteAt_text fits starts (by omega)
      have wordAt (index : Nat) (inside : index + 1 < packet.body.length) :
          conn.byteAt (packet.field.length + 1 + index) * 256 + conn.byteAt (packet.field.length + 1 + (index + 1)) =
            packet.wordAt index := by
        rw [byteAt_text fits starts (by omega), byteAt_text fits starts (by omega), getD_body (by omega), getD_body inside]
        rfl
      have slice (index count : Nat) (inside : index + count ≤ packet.body.length) :
          conn.slice (packet.field.length + 1 + index) count = (packet.body.drop index).take count := by
        rw [slice_unread (by omega), whole, drop_body (by omega),
          take_append_of_le_length (by rw [length_drop]; omega)]
      have sameQos : conn.byteAt 0 / 2 % 4 = packet.qos := by rw [header, Packet.qos]
      have three : packet.field.length + 3 + packet.wordAt 0 = packet.field.length + 1 + (2 + packet.wordAt 0) := by omega
      rw [Packet.payloadStart] at room
      have topicLength := wordAt 0 (by omega)
      have topic := slice 2 (packet.wordAt 0) (by omega)
      simp only [mqttHandlePublish, pos, frame, sameQos, topicLength]
      rw [if_neg (by omega)]
      split
      next atMostOnce =>
        have payload := slice (2 + packet.wordAt 0) (packet.body.length - (2 + packet.wordAt 0)) (by omega)
        have left : packet.field.length + packet.body.length + 1 - (packet.field.length + 3 + packet.wordAt 0) =
            packet.body.length - (2 + packet.wordAt 0) := by omega
        rw [left, three, payload, take_of_length_le (by rw [length_drop]), Packet.payloadStart, if_pos atMostOnce]
        exact congrArg (fun topic => some (Handled.publish _ _ topic _)) topic
      next identified =>
        rw [if_neg identified] at room
        have payload := slice (2 + packet.wordAt 0 + 2) (packet.body.length - (2 + packet.wordAt 0 + 2)) (by omega)
        have identifier := wordAt (2 + packet.wordAt 0) (by omega)
        have left : packet.field.length + packet.body.length + 1 - (packet.field.length + 3 + packet.wordAt 0 + 2) =
            packet.body.length - (2 + packet.wordAt 0 + 2) := by omega
        rw [left, three, Nat.add_assoc (packet.field.length + 1), Nat.add_assoc (packet.field.length + 1), payload, identifier,
          take_of_length_le (by rw [length_drop]), Packet.payloadStart, if_neg identified]
        exact congrArg (fun topic => some (Handled.publish _ _ topic _)) topic
    · split
      · rfl
      · split
        · rfl
        · rfl

theorem drop_packet (fits : conn.bufLen ≤ conn.buf.length) (whole : conn.unread = packet.bytes ++ rest)
    (pos : conn.bufPos = packet.field.length + packet.body.length) :
    (mqttPacketDrop conn).unread = rest ∧ (mqttPacketDrop conn).bufLen = rest.length ∧
      (mqttPacketDrop conn).bufPos = 0 ∧ (mqttPacketDrop conn).buf.length = conn.buf.length ∧
      (mqttPacketDrop conn).status = conn.status := by
  have length := length_unread fits
  rw [whole, length_append, bytes_length] at length
  have left : conn.bufLen - (packet.field.length + packet.body.length + 1) = rest.length := by omega
  have moved : conn.slice (packet.field.length + packet.body.length + 1) rest.length = rest := by
    rw [slice_unread (by omega), whole, ← bytes_length, drop_left, take_length]
  unfold mqttPacketDrop
  rw [if_neg (by omega)]
  simp only [pos, left, moved, Conn.unread, take_left, length_append, length_drop, true_and, and_true]
  omega

/-! ### One call -/

theorem type_unread (fits : conn.bufLen ≤ conn.buf.length) (starts : conn.unread <+: packet.bytes ++ rest)
    (some : 0 < conn.bufLen) : conn.byteAt 0 / 16 = packet.type := by
  rw [byteAt_text fits starts some]
  rfl

def Conn.framed (conn : Conn) (packet : Packet) : Conn :=
  { conn with bufPos := packet.field.length, bufFrameEnd := packet.field.length + packet.body.length }

theorem parserLoop_whole (wellFormed : packet.WellFormed) (fits : conn.bufLen ≤ conn.buf.length)
    (whole : conn.unread = packet.bytes ++ rest) (atStart : conn.bufPos = 0)
    (known : conn.status = .new → packet.type = 1) (fuel : Nat) :
    parserLoop 0 (fuel + 1) conn = match packet.handled with
      | .disconnect => (.hangup, [.disconnect], conn.framed packet)
      | handled =>
        let dropped := mqttPacketDrop
          { conn.framed packet with status := .next, bufPos := packet.field.length + packet.body.length }
        if 0 < dropped.bufLen then
          ((parserLoop 0 fuel dropped).1, handled :: (parserLoop 0 fuel dropped).2.1, (parserLoop 0 fuel dropped).2.2)
        else (.ok, [handled], dropped) := by
  have length := length_unread fits
  rw [whole, length_append, bytes_length] at length
  have starts : conn.unread <+: packet.bytes ++ rest := whole ▸ prefix_rfl
  have nonempty : 0 < packet.field.length := by
    have isField := wellFormed.field
    cases shape : packet.field with
    | nil => rw [shape] at isField; cases isField
    | cons byte field => simp
  have found := remainingLength_packet wellFormed fits starts
  rw [if_neg (by omega)] at found
  have handled : handle (conn.framed packet) packet.type = some packet.handled :=
    handle_packet wellFormed fits whole rfl rfl
  have notNew : ¬ (conn.status = .new ∧ packet.type ≠ 1) := fun both => both.2 (known both.1)
  rw [parserLoop, atStart, if_neg (by omega), if_neg (by omega), type_unread fits starts (by omega), if_neg notNew, found]
  simp only [Conn.framed] at handled ⊢
  simp only [handled]
  cases packet.handled with
  | disconnect | connect | ping | ignored | publish => rfl

theorem handled_disconnect_iff : packet.handled = .disconnect ↔ packet.type = 14 := by
  unfold Packet.handled
  constructor
  · intro isDisconnect
    repeat' split at isDisconnect
    all_goals first | assumption | cases isDisconnect
  · intro hangup
    simp [hangup]

section

variable (wellFormed : packet.WellFormed) (fits : conn.bufLen ≤ conn.buf.length)
  (whole : conn.unread = packet.bytes ++ rest) (atStart : conn.bufPos = 0)
  (known : conn.status = .new → packet.type = 1)
include wellFormed fits whole atStart known

theorem parserLoop_packet (goesOn : packet.type ≠ 14) (fuel : Nat) :
    ∃ dropped : Conn, dropped.unread = rest ∧ dropped.bufLen = rest.length ∧ dropped.bufPos = 0 ∧
      dropped.buf.length = conn.buf.length ∧ dropped.status = .next ∧
      parserLoop 0 (fuel + 1) conn = if 0 < rest.length then
          ((parserLoop 0 fuel dropped).1, packet.handled :: (parserLoop 0 fuel dropped).2.1,
            (parserLoop 0 fuel dropped).2.2) else (.ok, [packet.handled], dropped) := by
  obtain ⟨unread, left, pos, size, status⟩ := @drop_packet
    { conn.framed packet with status := .next, bufPos := packet.field.length + packet.body.length } packet rest
    fits whole rfl
  refine ⟨_, unread, left, pos, size, status, ?_⟩
  have round := parserLoop_whole wellFormed fits whole atStart known fuel
  rw [← left, round]
  cases shape : packet.handled with
  | disconnect => exact absurd (handled_disconnect_iff.mp shape) goesOn
  | connect | ping | ignored | publish => rfl

theorem parserLoop_hangup (hangup : packet.type = 14) (fuel : Nat) :
    parserLoop 0 (fuel + 1) conn = (.hangup, [packet.handled], conn.framed packet) := by
  rw [parserLoop_whole wellFormed fits whole atStart known, handled_disconnect_iff.mpr hangup]

end

theorem parserLoop_part (wellFormed : packet.WellFormed) (fits : conn.bufLen ≤ conn.buf.length)
    (starts : conn.unread <+: packet.bytes) (some : 0 < conn.bufLen) (atStart : conn.bufPos = 0)
    (known : conn.status = .new → packet.type = 1)
    (short : conn.bufLen < max (packet.field.length + 1) (packet.body.length + 2)) (fuel : Nat) :
    parserLoop 0 (fuel + 1) conn = (.more, [], conn) := by
  have same : ({ conn with bufPos := 0 } : Conn) = conn := by rw [← atStart]
  have starts : conn.unread <+: packet.bytes ++ [] := by rwa [append_nil]
  have found := remainingLength_packet wellFormed fits starts
  rw [if_pos short] at found
  have notNew : ¬ (conn.status = .new ∧ packet.type ≠ 1) := fun both => both.2 (known both.1)
  rw [parserLoop, atStart, if_neg (by omega)]
  split
  · rw [same]
  · rw [type_unread fits starts some, if_neg notNew, found]
    simp [same]

end

structure Progress (packets : List Packet) (conn : Conn) (done later : List Packet) (left : Bytes) : Prop where
  parts : packets = done ++ later
  read : conn.unread = done.flatMap Packet.bytes ++ left
  part : ∀ packet ∈ later.head?, left.length < packet.bytes.length

structure Rests (conn : Conn) (left : Bytes) (size : Nat) : Prop where
  unread : conn.unread = left
  length : conn.bufLen = left.length
  atStart : conn.bufPos = 0
  size : conn.buf.length = size

theorem parserLoop_packets {packets : List Packet} {conn : Conn} {fuel : Nat} (each : ∀ packet ∈ packets, packet.WellFormed)
    (ends : ∀ packet ∈ packets.dropLast, packet.type ≠ 14) (fits : conn.bufLen ≤ conn.buf.length)
    (atStart : conn.bufPos = 0) (starts : conn.unread <+: packets.flatMap Packet.bytes) (some : 0 < conn.bufLen)
    (known : conn.status = .new → ∀ packet ∈ packets.head?, packet.type = 1) (settled : Settled packets conn.bufLen)
    (enough : conn.bufLen < fuel) : ∃ done later left next outcome, Progress packets conn done later left ∧
      parserLoop 0 fuel conn = (outcome, done.map Packet.handled, next) ∧ outcome ≠ .error ∧
      (outcome = .hangup → later = []) ∧
      (outcome ≠ .hangup → Rests next left conn.buf.length ∧ (next.status = .new → conn.status = .new ∧ done = [])) := by
  induction packets generalizing conn fuel with
  | nil =>
    have empty := length_unread fits
    rw [eq_nil_of_prefix_nil starts] at empty
    simp only [length_nil] at empty
    omega
  | cons packet packets ih =>
    obtain ⟨wellFormed, others⟩ := forall_mem_cons.mp each
    have length := length_unread fits
    have known' : conn.status = .new → packet.type = 1 := fun new => known new packet rfl
    obtain ⟨fuel, rfl⟩ : ∃ more, fuel = more + 1 := ⟨fuel - 1, by omega⟩
    by_cases whole : packet.bytes.length ≤ conn.bufLen
    · -- the packet was read as a whole
      obtain ⟨rest, split⟩ : packet.bytes <+: conn.unread :=
        prefix_of_prefix_length_le (prefix_append _ _) starts (by omega)
      have later : rest <+: packets.flatMap Packet.bytes := by
        rw [← split] at starts
        exact (prefix_append_right_inj _).mp starts
      have width : conn.bufLen = packet.bytes.length + rest.length := by rw [← length, ← split, length_append]
      by_cases hangup : packet.type = 14
      · -- nothing follows the last packet
        obtain rfl : packets = [] := by
          cases packets with
          | nil => rfl
          | cons next packets => exact absurd hangup (ends packet (by simp))
        obtain rfl := eq_nil_of_prefix_nil later
        refine ⟨[packet], [], [], conn.framed packet, .hangup, ⟨rfl, ?_, by simp⟩, ?_, by simp, fun _ => rfl,
          fun other => absurd rfl other⟩
        · simpa using split.symm
        · exact parserLoop_hangup wellFormed fits split.symm atStart known' hangup fuel
      · obtain ⟨dropped, unread, left, pos, size, status, round⟩ :=
          parserLoop_packet wellFormed fits split.symm atStart known' hangup fuel
        by_cases something : 0 < rest.length
        · rw [if_pos something] at round
          have settled' : Settled packets dropped.bufLen := by
            rw [Settled, if_pos whole] at settled
            rw [left, show rest.length = conn.bufLen - packet.bytes.length by omega]
            exact settled
          have ends' : ∀ packet ∈ packets.dropLast, packet.type ≠ 14 := by
            intro other member
            cases packets with
            | nil => cases member
            | cons next packets => exact ends other (mem_cons_of_mem _ member)
          have positive : 0 < packet.bytes.length := by rw [bytes_length]; omega
          obtain ⟨done, further, last, next, outcome, progress, ran, noError, hung, rests⟩ := @ih dropped fuel others ends'
            (by rw [left, size]; omega) pos (by rw [unread]; exact later) (by omega) (by simp [status]) settled' (by omega)
          refine ⟨packet :: done, further, last, next, outcome, ⟨?_, ?_, progress.part⟩, ?_, noError, hung, ?_⟩
          · rw [progress.parts]
            rfl
          · rw [← split, ← unread, progress.read, flatMap_cons, append_assoc]
          · rw [round, ran]
            rfl
          · intro goesOn
            obtain ⟨rests, fresh⟩ := rests goesOn
            refine ⟨size ▸ rests, ?_⟩
            intro new
            rw [(fresh new).1] at status
            cases status
        · obtain rfl := length_eq_zero_iff.mp (Nat.eq_zero_of_not_pos something)
          refine ⟨[packet], packets, [], dropped, .ok, ⟨rfl, ?_, ?_⟩, round, by simp, by simp, ?_⟩
          · simpa using split.symm
          · intro next _
            exact succ_pos _
          · intro _
            refine ⟨⟨unread, left, pos, size⟩, ?_⟩
            intro new
            rw [new] at status
            cases status
    · -- bytes of the packet are missing
      have part : conn.unread <+: packet.bytes := prefix_of_prefix_length_le starts (prefix_append _ _) (by omega)
      rw [Settled, if_neg whole] at settled
      refine ⟨[], packet :: packets, conn.unread, conn, .more, ⟨rfl, rfl, ?_⟩, ?_, by simp, by simp, ?_⟩
      · intro next isNext
        cases isNext
        omega
      · exact parserLoop_part wellFormed fits part some atStart known' settled fuel
      · exact fun _ => ⟨⟨rfl, length.symm, atStart, rfl⟩, fun new => ⟨new, rfl⟩⟩

/-! ### Runs -/

variable {packets done later : List Packet} {bufferSize : Nat}

theorem settled_append (more : Nat) :
    Settled (done ++ later) ((done.flatMap Packet.bytes).length + more) ↔ Settled later more := by
  induction done with
  | nil => simp
  | cons packet done ih =>
    rw [cons_append, Settled, flatMap_cons, length_append, if_pos (by omega)]
    rw [show packet.bytes.length + (done.flatMap Packet.bytes).length + more - packet.bytes.length =
      (done.flatMap Packet.bytes).length + more by omega]
    exact ih

theorem complete_append {left : Bytes} (part : ∀ packet ∈ later.head?, left.length < packet.bytes.length) :
    complete (done ++ later) (done.flatMap Packet.bytes ++ left).length = done := by
  induction done with
  | nil =>
    cases later with
    | nil => rfl
    | cons packet later =>
      have short := part packet rfl
      simp only [nil_append, flatMap_nil, complete]
      rw [if_neg (by omega)]
  | cons packet done ih =>
    simp only [length_append] at ih
    rw [cons_append, complete, flatMap_cons, length_append, length_append, if_pos (by omega)]
    rw [show packet.bytes.length + (done.flatMap Packet.bytes).length + left.length - packet.bytes.length =
      (done.flatMap Packet.bytes).length + left.length by omega, ih]

def Follows (packets : List Packet) (bufferSize : Nat) (session : Session) : Prop :=
  ∃ done later left, packets = done ++ later ∧ session.stream = done.flatMap Packet.bytes ++ left ∧
    (∀ packet ∈ later.head?, left.length < packet.bytes.length) ∧ session.handled = done.map Packet.handled ∧
    (session.closed = false → Rests session.conn left bufferSize ∧ (session.conn.status = .new → done = []))

theorem follows_opened : Follows packets bufferSize (opened bufferSize) := by
  refine ⟨[], packets, [], rfl, rfl, ?_, rfl, ?_⟩
  · intro packet _
    exact succ_pos _
  · intro _
    refine ⟨⟨rfl, rfl, rfl, ?_⟩, fun _ => rfl⟩
    simp [opened]

theorem rests_received {conn : Conn} {left bytes : Bytes} (rests : Rests conn left bufferSize)
    (room : left.length + bytes.length ≤ bufferSize) :
    (conn.received bytes).unread = left ++ bytes ∧ (conn.received bytes).buf.length = bufferSize := by
  have held : conn.buf.take conn.bufLen = left := rests.unread
  have length := rests.length
  have size := rests.size
  constructor
  · simp only [Conn.received, Conn.unread, held]
    rw [take_left' (by rw [length_append, length])]
  · simp only [Conn.received, held, length_append, length_drop]
    omega

theorem dropLast_later (member : ∀ packet ∈ (done ++ later).dropLast, packet.type ≠ 14) :
    ∀ packet ∈ later.dropLast, packet.type ≠ 14 := by
  intro packet inside
  apply member
  cases later with
  | nil => cases inside
  | cons next later =>
    rw [dropLast_append_of_ne_nil (by simp)]
    exact mem_append_right _ inside

theorem follows_event (isSequence : Sequence bufferSize packets) {session : Session} {incoming : Bytes}
    (follows : session.stream <+: packets.flatMap Packet.bytes → Follows packets bufferSize session)
    (reads : ReadsSettled packets session incoming)
    (sent : (mqttConnEvent incoming session).stream <+: packets.flatMap Packet.bytes) :
    Follows packets bufferSize (mqttConnEvent incoming session) := by
  unfold mqttConnEvent at sent ⊢
  split at sent
  next closed =>
    rw [if_pos closed]
    exact follows sent
  next isOpen =>
    rw [if_neg isOpen]
    have isOpen : session.closed = false := by simpa using isOpen
    split at sent
    next nothing =>
      obtain ⟨done, later, left, parts, stream, part, handled, _⟩ := follows sent
      rw [if_pos nothing]
      exact ⟨done, later, left, parts, stream, part, handled, fun isOpen => by cases isOpen⟩
    next something =>
      rw [if_neg something]
      have before : session.stream <+: packets.flatMap Packet.bytes := (prefix_append _ _).trans sent
      obtain ⟨done, later, left, rfl, stream, part, handled, open_⟩ := follows before
      obtain ⟨rests, fresh⟩ := open_ isOpen
      have limit : (arriving session incoming).length ≤ bufferSize - left.length := by
        rw [arriving, length_take, rests.size, rests.length]
        exact Nat.min_le_left _ _
      have settled := reads isOpen something
      generalize arriving session incoming = bytes at sent something settled limit ⊢
      have some := length_pos_iff.mpr something
      obtain ⟨unread, size⟩ := @rests_received bufferSize session.conn left bytes rests (by omega)
      have length : (session.conn.received bytes).bufLen = (left ++ bytes).length := by
        rw [length_append, ← rests.length]
        rfl
      rw [stream, append_assoc] at sent settled
      rw [flatMap_append, prefix_append_right_inj] at sent
      rw [length_append, settled_append] at settled
      obtain ⟨more, further, last, next, outcome, progress, ran, noError, hung, goes⟩ :=
        @parserLoop_packets later (session.conn.received bytes) ((session.conn.received bytes).bufLen + 1)
          (fun packet member => (isSequence.each packet (mem_append_right _ member)).1)
          (dropLast_later isSequence.ends) (by rw [size, length, length_append]; omega) rests.atStart
          (by rw [unread]; exact sent) (by rw [length, length_append]; omega)
          (fun new => by
            obtain rfl := fresh new
            exact isSequence.starts)
          (by rw [length]; exact settled) (lt_succ_self _)
      have parsed : mqttProtParser (session.conn.received bytes) = (outcome, more.map Packet.handled, next) := by
        rw [mqttProtParser, show (session.conn.received bytes).bufPos = 0 from rests.atStart]
        exact ran
      refine ⟨done ++ more, further, last, ?_, ?_, progress.part, ?_, ?_⟩
      · rw [progress.parts, append_assoc]
      · rw [stream, append_assoc, ← unread, progress.read, flatMap_append, append_assoc]
      · simp [parsed, handled]
      · simp only [parsed]
        intro stillOpen
        have noHangup : outcome ≠ .hangup := by
          intro hangup
          simp [hangup] at stillOpen
        obtain ⟨nextRests, nextFresh⟩ := goes noHangup
        refine ⟨size ▸ nextRests, ?_⟩
        intro new
        obtain ⟨sameStatus, none⟩ := nextFresh new
        rw [fresh sameStatus, none]
        rfl

def connectPacket : Packet where
  header := 0x10
  field := [12]
  body := [0, 4, 77, 81, 84, 84, 4, 2, 0, 60, 0, 0]

/-- A message with topic `t`. -/
def messagePacket (field payload : Bytes) : Packet where
  header := 0x30
  field := field
  body := [0, 1, 116] ++ payload

theorem sequence_messages {size : Nat} (room : 14 ≤ size)
    (each : ∀ packet ∈ packets, packet.header = 0x30 ∧ packet.WellFormed ∧ packet.bytes.length ≤ size) :
    Sequence size (connectPacket :: packets) := by
  refine ⟨?_, by simp [connectPacket, Packet.type], ?_⟩
  · rw [forall_mem_cons]
    exact ⟨⟨⟨by decide, by decide, by decide, by decide⟩, room⟩, fun packet member => (each packet member).2⟩
  · intro packet member
    rcases mem_cons.mp (dropLast_subset _ member) with rfl | member
    · decide
    · simp [Packet.type, (each packet member).1]

def longMessage : Packet := messagePacket [0x80, 1] (List.replicate 125 55)

theorem longMessage_wellFormed : longMessage.WellFormed ∧ longMessage.bytes.length ≤ 256 :=
  ⟨⟨by decide +kernel, by decide +kernel, by decide +kernel, by decide +kernel⟩, by decide +kernel⟩

end FluentBit.InMqtt
