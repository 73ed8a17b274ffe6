import FluentBit.InTcp.Connection
import FluentBit.Json.ObjectStream

/-! Objects that come in over a connection. The reads cut the text anywhere; each object is a
record once its last byte was read. -/

set_option autoImplicit false

namespace FluentBit.InTcp

open List Ascii Runs
open Msgpack (Object)
open Json (Objects Written Pending Unpacks Resumes Blank)

/-- A line end is stripped only while the parser holds no part of an object. -/
def KeepsOffsets (config : Config) (session : Session) (incoming : Bytes) : Prop :=
  session.closed = false → arriving config session incoming ≠ [] →
    ∀ byte ∈ (session.conn.bufData ++ arriving config session incoming).head?, isLineEnd byte = true →
      session.conn.packState = .init

structure Framing (config : Config) (session : Session) (values : List Object) (unread : Bytes)
    (later : List Object) : Prop where
  records : values = session.records ++ later
  written : Written config.atof (session.conn.bufData ++ unread) later
  complete : unread = [] → later = []
  resumes : Resumes session.conn.packState session.conn.bufData

section

variable {config : Config} {session : Session} {values : List Object} {unread : Bytes}

theorem unpackNext_end (data : Bytes) : Event.unpackNext data data.length = (.more, data.length) := by
  simp [Event.unpackNext]

variable {bytes : Bytes}

section

variable (unpacks : Unpacks bytes values) (maps : ∀ value ∈ values, ∃ entries, value = .map entries)
include unpacks maps

theorem packRecords_unpacks (before : Bytes) {fuel : Nat} (enough : bytes.length ≤ fuel) :
    packRecords (before ++ bytes) fuel before.length = some values := by
  induction unpacks generalizing before fuel with
  | none =>
    cases fuel with
    | zero => rfl
    | succ fuel => simp [packRecords, unpackNext_end]
  | @more bytes rest value values first later ih =>
    obtain ⟨used, split, nonempty, again⟩ := Msgpack.unpack_stable first
    rw [append_nil] at split
    subst split
    have isBytes : bytes ++ rest ≠ [] := by
      intro empty
      rw [append_eq_nil_iff.mp empty |>.1] at nonempty
      simp at nonempty
    rw [length_append] at enough
    cases fuel with
    | zero => omega
    | succ fuel =>
      obtain ⟨entries, rfl⟩ := maps value (mem_cons_self ..)
      have behind : (before ++ (bytes ++ rest)).length - rest.length = (before ++ bytes).length := by
        simp only [length_append]
        omega
      have others := @ih (fun other member => maps other (mem_cons_of_mem _ member)) (before ++ bytes) fuel (by omega)
      rw [append_assoc] at others
      simp only [packRecords, Event.unpackNext_append before (bytes ++ rest) isBytes (again rest), recordOf, behind,
        others]
      rfl

theorem processPack_unpacks : processPack bytes = values := by
  have all := packRecords_unpacks unpacks maps [] (Nat.le_refl _)
  rw [nil_append, length_nil] at all
  rw [processPack, all]
  rfl

end

theorem maps_of_objects {text : Bytes} (objects : Objects config.atof text values) :
    ∀ value ∈ values, ∃ entries, value = .map entries := by
  induction objects with
  | none => simp
  | more blank object later ih =>
    intro value member
    rcases mem_cons.mp member with rfl | member
    · exact object.isMap
    · exact ih value member

/-! ### Events -/

theorem written_strip {data : Bytes} (written : Written config.atof (data ++ unread) values) :
    Written config.atof (strip data ++ unread) values := by
  cases data with
  | nil => exact written
  | cons byte data =>
    rw [strip]
    split
    next lineEnd =>
      apply @Written.drop_blank _ _ [byte] _ written
      intro other member
      rw [mem_singleton] at member
      subst member
      simp only [isLineEnd, Bool.or_eq_true, beq_iff_eq] at lineEnd
      rcases lineEnd with rfl | rfl
      · rfl
      · rfl
    · exact written

theorem received_json (json : config.format = .json) {conn : Conn}
    (written : Written config.atof (conn.bufData ++ bytes ++ unread) values)
    (resumes : Resumes conn.packState conn.bufData)
    (keeps : ∀ byte ∈ (conn.bufData ++ bytes).head?, isLineEnd byte = true → conn.packState = .init) :
    ∃ later, values = (conn.received config bytes).2 ++ later ∧
      Written config.atof ((conn.received config bytes).1.bufData ++ unread) later ∧ (unread = [] → later = []) ∧
      Resumes (conn.received config bytes).1.packState (conn.received config bytes).1.bufData := by
  have tokenised : Json.jsonTokenise (strip (conn.bufData ++ bytes)) conn.packState =
      Json.jsonTokenise (strip (conn.bufData ++ bytes)) .init := by
    cases shape : conn.bufData ++ bytes with
    | nil =>
      have := resumes bytes
      rwa [shape] at this
    | cons byte data =>
      rw [strip]
      split
      next lineEnd => rw [keeps byte (by rw [shape]; rfl) lineEnd]
      · have := resumes bytes
        rwa [shape] at this
  obtain ⟨before, pending, done, later, split, valuesSplit, objects, isPending, left, last⟩ :=
    (written_strip written).cut
  rw [split] at tokenised
  refine ⟨later, ?_⟩
  rcases Json.packJsonState_objects objects isPending tokenised with
    ⟨some, packed, next, unpacks, lastByte, outcome⟩ | ⟨none, blank, next, outcome⟩ | ⟨none, next, resumed, outcome⟩
  · have records := processPack_unpacks unpacks (maps_of_objects objects)
    obtain ⟨size, length⟩ : ∃ size, before.length = size + 1 := by
      apply Nat.exists_eq_succ_of_ne_zero
      rw [ne_eq, length_eq_zero_iff, objects.eq_nil_iff]
      exact some
    have handled : conn.received config bytes =
        ({ bufData := pending, bufSize := conn.bufSize, packState := .init }, done) := by
      simp only [Conn.received, parsePayload, json, parsePayloadJson, split, outcome, lastByte, length, records,
        Conn.consume]
      rw [← length, drop_left]
    rw [handled]
    exact ⟨valuesSplit, left, last, Json.resumes_init⟩
  · have handled : conn.received config bytes =
        ({ bufData := [], bufSize := conn.bufSize, packState := .init }, []) := by
      simp [Conn.received, parsePayload, json, parsePayloadJson, split, outcome]
    rw [none] at valuesSplit
    rw [handled]
    exact ⟨valuesSplit, left.drop_blank blank, last, Json.resumes_init⟩
  · have handled : conn.received config bytes =
        ({ bufData := before ++ pending, bufSize := conn.bufSize, packState := next }, []) := by
      simp [Conn.received, parsePayload, json, parsePayloadJson, split, outcome]
    rw [none] at valuesSplit
    rw [handled, objects.eq_nil_iff.mpr none, nil_append]
    exact ⟨valuesSplit, left, last, resumed⟩

theorem framing_opened (written : Written config.atof ((opened config).stream ++ unread) values) :
    ∃ later, Framing config (opened config) values unread later := by
  refine ⟨values, rfl, written, ?_, Json.resumes_init⟩
  rintro rfl
  obtain ⟨_, _, done, later, split, values, objects, _, _, last⟩ := @Written.cut _ _ [] _ written
  obtain ⟨rfl, _⟩ := append_eq_nil_iff.mp split.symm
  rw [values, last rfl, objects.eq_nil_iff.mp rfl]
  rfl

theorem framing_event (json : config.format = .json) {incoming : Bytes}
    (framing : ∀ unread, Written config.atof (session.stream ++ unread) values →
      ∃ later, Framing config session values unread later) (keeps : KeepsOffsets config session incoming)
    (written : Written config.atof ((tcpConnEvent config incoming session).stream ++ unread) values) :
    ∃ later, Framing config (tcpConnEvent config incoming session) values unread later := by
  rcases event_cases config incoming session with
    ⟨stream, records, buffer, state⟩ | ⟨conn, isOpen, something, sameBuffer, sameState, handled⟩
  · rw [stream] at written
    obtain ⟨later, recorded, left, last, resumes⟩ := framing unread written
    refine ⟨later, ?_, ?_, last, ?_⟩
    · rw [records, recorded]
    · rw [buffer]
      exact left
    · rw [buffer, state]
      exact resumes
  · rw [handled] at written ⊢
    simp only at written
    rw [append_assoc] at written
    obtain ⟨before, recorded, left, _, resumes⟩ := framing _ written
    have kept := keeps isOpen something
    rw [← sameBuffer, ← append_assoc] at left
    rw [← sameBuffer, ← sameState] at kept resumes
    obtain ⟨later, appended, leftLater, last, resumesLater⟩ := received_json json left resumes kept
    refine ⟨later, ?_, leftLater, last, resumesLater⟩
    rw [recorded, appended, append_assoc]

end

/-- In every run that strips line ends only while no part of an object is held, the records are
the first objects of the text that comes in, in order, and all of them at its end. -/
theorem objects_appended {config : Config} (json : config.format = .json) {session : Session}
    (path : Runs.Path (tcpConnEvent config) (KeepsOffsets config) (opened config) session) {unread : Bytes}
    {values : List Object} (written : Written config.atof (session.stream ++ unread) values) :
    ∃ later, values = session.records ++ later ∧ (unread = [] → later = []) := by
  have invariant := path.invariant (fun session => ∀ unread, Written config.atof (session.stream ++ unread) values →
      ∃ later, Framing config session values unread later)
    (fun unread => framing_opened)
    (fun session incoming framing keeps unread => framing_event json framing keeps)
  obtain ⟨later, framing⟩ := invariant unread written
  exact ⟨later, framing.records, framing.complete⟩

def jsonConfig : Config where
  format := .json
  separator := []
  chunkSize := 32768
  bufferSize := 32768
  atof := fun _ => 0

/-- The text `{"a":1}` -/
def sampleText : Bytes := [123, 34, 97, 34, 58, 49, 125]

def sampleValue : Object := .map [(.str [97], .positive 1)]

def sampleTokens : List Json.Token :=
  [{ type := .object, start := 0, stop := some 7, size := 1, parent := none },
    { type := .string, start := 2, stop := some 3, size := 1, parent := some 0 },
    { type := .primitive, start := 5, stop := some 6, size := 0, parent := some 1 }]

theorem sample_object : Json.ObjectText jsonConfig.atof sampleText sampleValue where
  braces := ⟨[34, 97, 34, 58, 49], rfl⟩
  clean := by decide
  tokenised := ⟨sampleTokens, by rfl, by decide, _, by rfl, by rfl⟩
  isMap := ⟨_, rfl⟩

def objectReads : List Bytes :=
  [[123, 34, 97, 34, 58], [49, 125, newline, 123, 34, 97, 34, 58, 49, 125, newline]]

theorem objects_appended_two :
    [sampleValue, sampleValue] = (Runs.after (tcpConnEvent jsonConfig) (opened jsonConfig) objectReads).records := by
  have path : Runs.Path (tcpConnEvent jsonConfig) (KeepsOffsets jsonConfig) (opened jsonConfig) _ :=
    path_after objectReads ⟨fun _ _ => by decide +kernel, fun _ _ => by decide +kernel, trivial⟩
  have two : Objects jsonConfig.atof ([] ++ (sampleText ++ ([newline] ++ (sampleText ++ []))))
      [sampleValue, sampleValue] :=
    .more (by decide) sample_object (.more (by decide) sample_object .none)
  have stream : (Runs.after (tcpConnEvent jsonConfig) (opened jsonConfig) objectReads).stream ++ [] =
      [] ++ (sampleText ++ ([newline] ++ (sampleText ++ []))) ++ [newline] := by
    decide +kernel
  have written := Json.written_append two (by decide : Blank [newline])
  rw [← stream] at written
  obtain ⟨later, split, last⟩ := objects_appended rfl path written
  rw [split, last rfl, append_nil]

/-- A line end is stripped while a part of an object is held, whose offsets stay as they are. -/
theorem stripped_object_lost : ¬ ∀ (config : Config) (session : Session) (values : List Object), config.format = .json →
      Runs.Path (tcpConnEvent config) anyEvent (opened config) session →
        Written config.atof session.stream values → session.records = values := by
  intro claim
  have path : Runs.Path (tcpConnEvent jsonConfig) anyEvent (opened jsonConfig) _ :=
    path_after [[newline, newline, 123], [34, 97, 34, 58, 49, 125]] (admits_of_forall (fun _ _ => trivial) _ _)
  have one : Objects jsonConfig.atof ([newline, newline] ++ (sampleText ++ [])) [sampleValue] :=
    .more (by decide) sample_object .none
  have stream : (Runs.after (tcpConnEvent jsonConfig) (opened jsonConfig)
      [[newline, newline, 123], [34, 97, 34, 58, 49, 125]]).stream =
        [newline, newline] ++ (sampleText ++ []) ++ [] := by
    decide +kernel
  have written := Json.written_append one (by decide : Blank [])
  rw [← stream] at written
  cases claim _ _ _ rfl path written

end FluentBit.InTcp
