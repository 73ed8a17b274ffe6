import FluentBit.Event.Decoder
import FluentBit.Foundation.CString
import FluentBit.Foundation.Runs
import FluentBit.Foundation.Separator
import FluentBit.Json.Pack

/-! A connection of the TCP input, after `plugins/in_tcp/tcp_conn.c`, with the records it appends.
No key for the source address is set, and the encoder of records does not fail. -/

set_option autoImplicit false

namespace FluentBit.InTcp

open Msgpack (Object)

/-- `FLB_TCP_FMT_JSON` and `FLB_TCP_FMT_NONE` -/
inductive Format where
  | json
  | none
deriving DecidableEq

/-- `struct flb_in_tcp_config`, with what `atof` reads. -/
structure Config where
  format : Format
  separator : Bytes
  chunkSize : Nat
  bufferSize : Nat
  atof : Bytes → BitVec 64

/-- `struct tcp_conn`; the buffer holds `buf_len` bytes. -/
structure Conn where
  bufData : Bytes
  bufSize : Nat
  packState : Json.PackState

structure Session where
  conn : Conn
  closed : Bool
  stream : Bytes
  records : List Object

/-- `tcp_conn_add` -/
def opened (config : Config) : Session where
  conn := { bufData := [], bufSize := config.chunkSize, packState := .init }
  closed := false
  stream := []
  records := []

def ascii (chars : List Char) : Bytes := chars.map Char.toUInt8

def logRecord (text : Bytes) : Object := .map [(.str (ascii ['l', 'o', 'g']), .str text)]

def recordOf : Object → Option Object
  | .map entries => some (.map entries)
  | .array items => some (.map [(.str (ascii ['m', 's', 'g']), .array items)])
  | _ => none

/-- The loop of `process_pack`, at most once for each byte. An entry that is no map and no array
is an error, and then nothing is appended. -/
def packRecords (pack : Bytes) : Nat → Nat → Option (List Object)
  | 0, _ => some []
  | fuel + 1, off =>
    match Event.unpackNext pack off with
    | (.success entry, off) => do
        let body ← recordOf entry
        let later ← packRecords pack fuel off
        return body :: later
    | _ => some []

/-- `process_pack`: the records it appends. -/
def processPack (pack : Bytes) : List Object := (packRecords pack pack.length 0).getD []

inductive Payload where
  | incomplete
  | refused
  | processed (records : List Object) (bytes : Nat)

def parsePayloadJson (config : Config) (conn : Conn) : Payload × Conn :=
  match Json.packJsonState config.atof conn.bufData conn.packState with
  | (.error .part, packState) => (.incomplete, { conn with packState })
  | (.error .inval, packState) => (.refused, { conn with bufData := [], packState })
  | (.error .failed, packState) => (.refused, { conn with packState })
  | (.ok pack, packState) => (.processed (processPack pack) packState.lastByte, { conn with packState })

/-- The loop of `parse_payload_none` from `buf` on, at most once for each byte. -/
def scan (separator : Bytes) : Nat → Bytes → List Bytes × Nat
  | 0, _ => ([], 0)
  | fuel + 1, buf =>
    match Separator.find (CString.text separator) (CString.text buf) with
    | none => ([], 0)
    | some len =>
      if len = 0 then ([], 0)
      else
        let (later, consumed) := scan separator fuel (buf.drop (len + separator.length))
        (buf.take len :: later, consumed + (len + 1))

def parsePayloadNone (config : Config) (conn : Conn) : Payload × Conn :=
  let (texts, consumed) := scan config.separator conn.bufData.length conn.bufData
  if consumed = 0 then (.incomplete, conn) else (.processed (texts.map logRecord) consumed, conn)

def Conn.available (conn : Conn) : Nat := conn.bufSize - conn.bufData.length - 1

def Conn.reserve (config : Config) (conn : Conn) : Option Conn :=
  if conn.available < 1 then
    if config.bufferSize < conn.bufSize + config.chunkSize then none
    else some { conn with bufSize := conn.bufSize + config.chunkSize }
  else some conn

def isLineEnd (byte : UInt8) : Bool := byte == Ascii.carriageReturn || byte == Ascii.newline

def strip : Bytes → Bytes
  | [] => []
  | byte :: rest => if isLineEnd byte then rest else byte :: rest

def parsePayload (config : Config) : Conn → Payload × Conn :=
  match config.format with
  | .json => parsePayloadJson config
  | .none => parsePayloadNone config

def Conn.consume (config : Config) (bytes : Nat) (conn : Conn) : Conn :=
  { conn with
    bufData := conn.bufData.drop bytes
    packState :=
      match config.format with
      | .json => .init
      | .none => conn.packState }

def Conn.received (config : Config) (conn : Conn) (bytes : Bytes) : Conn × List Object :=
  match parsePayload config { conn with bufData := strip (conn.bufData ++ bytes) } with
  | (.incomplete, conn) => (conn, [])
  | (.refused, conn) => ({ conn with packState := .init }, [])
  | (.processed records 0, conn) => (conn, records)
  | (.processed records (bytes + 1), conn) => (conn.consume config (bytes + 1), records)

def Conn.readable (conn : Conn) (incoming : Bytes) : Bytes := incoming.take conn.available

/-- `tcp_conn_event` for `MK_EVENT_READ` -/
def tcpConnEvent (config : Config) (incoming : Bytes) (session : Session) : Session :=
  if session.closed then session
  else
    match session.conn.reserve config with
    | none => { session with closed := true }
    | some conn =>
      if conn.readable incoming = [] then { session with conn, closed := true }
      else
        let (next, records) := conn.received config (conn.readable incoming)
        { session with
          conn := next
          stream := session.stream ++ conn.readable incoming
          records := session.records ++ records }

def arriving (config : Config) (session : Session) (incoming : Bytes) : Bytes :=
  match session.conn.reserve config with
  | none => []
  | some conn => conn.readable incoming

theorem reserve_eq {config : Config} {conn larger : Conn} (reserved : conn.reserve config = some larger) :
    larger.bufData = conn.bufData ∧ larger.packState = conn.packState := by
  unfold Conn.reserve at reserved
  split at reserved
  · split at reserved
    · cases reserved
    · cases reserved
      exact ⟨rfl, rfl⟩
  · cases reserved
    exact ⟨rfl, rfl⟩

theorem event_cases (config : Config) (incoming : Bytes) (session : Session) :
    ((tcpConnEvent config incoming session).stream = session.stream ∧
      (tcpConnEvent config incoming session).records = session.records ∧
      (tcpConnEvent config incoming session).conn.bufData = session.conn.bufData ∧
      (tcpConnEvent config incoming session).conn.packState = session.conn.packState) ∨
    ∃ conn : Conn, session.closed = false ∧ arriving config session incoming ≠ [] ∧
      conn.bufData = session.conn.bufData ∧ conn.packState = session.conn.packState ∧
      tcpConnEvent config incoming session =
        { conn := (conn.received config (arriving config session incoming)).1
          closed := false
          stream := session.stream ++ arriving config session incoming
          records := session.records ++ (conn.received config (arriving config session incoming)).2 } := by
  unfold tcpConnEvent arriving
  split
  · exact .inl ⟨rfl, rfl, rfl, rfl⟩
  next isOpen =>
    cases reserved : session.conn.reserve config with
    | none => exact .inl ⟨rfl, rfl, rfl, rfl⟩
    | some conn =>
      obtain ⟨sameData, sameState⟩ := reserve_eq reserved
      simp only
      split
      · exact .inl ⟨rfl, rfl, sameData, sameState⟩
      next something =>
        have isOpen : session.closed = false := by simpa using isOpen
        exact .inr ⟨conn, isOpen, something, sameData, sameState, by rw [isOpen]⟩

/-! Raw records of the TCP input. The stream falls into segments that the separator ends; the
records are the segments that are not empty, and the buffer holds what follows the last one. -/

open List Ascii Separator Runs
open Separator (split)

def Framed (config : Config) (session : Session) : Prop :=
  session.records = ((split config.separator session.stream).1.filter (· ≠ [])).map logRecord ∧
    session.conn.bufData = (split config.separator session.stream).2

def Framable (separator data : Bytes) : Prop :=
  (∀ byte ∈ data.head?, isLineEnd byte = true → separator = [byte]) ∧
    ∀ segment ∈ (split separator (strip data)).1, segment ≠ [] ∧ separator.length = 1

instance (separator data : Bytes) : Decidable (Framable separator data) := inferInstanceAs (Decidable (_ ∧ _))

def ReadsFramable (config : Config) (session : Session) (incoming : Bytes) : Prop :=
  session.closed = false → arriving config session incoming ≠ [] →
    Framable config.separator (session.conn.bufData ++ arriving config session incoming)

section

variable {config : Config} {separator : Bytes}

theorem scan_eq (nonempty : separator ≠ []) (clean : 0 ∉ separator) (fuel : Nat) {buf : Bytes} (absent : 0 ∉ buf)
    (enough : buf.length ≤ fuel) (full : ∀ segment ∈ (split separator buf).1, segment ≠ [] ∧ separator.length = 1) :
    (scan separator fuel buf).1 = (split separator buf).1 ∧
      buf.drop (scan separator fuel buf).2 = (split separator buf).2 := by
  induction fuel generalizing buf with
  | zero =>
    obtain rfl : buf = [] := length_eq_zero_iff.mp (by omega)
    simp [scan, split, segments]
  | succ fuel ih =>
    rw [scan, CString.text_eq_self clean, CString.text_eq_self absent]
    cases found : Separator.find separator buf with
    | none => simp [split_of_absent nonempty found]
    | some len =>
      have fits := find_le found
      rw [split_of_find nonempty found] at full ⊢
      obtain ⟨some, single⟩ := full _ (mem_cons_self ..)
      have positive : len ≠ 0 := by
        rintro rfl
        exact some rfl
      have absentLater : 0 ∉ buf.drop (len + separator.length) := fun member => absent (mem_of_mem_drop member)
      obtain ⟨texts, rest⟩ := ih absentLater (by simp only [length_drop]; omega)
        (fun segment member => full segment (mem_cons_of_mem _ member))
      simp only [positive, if_false]
      constructor
      · rw [texts]
      · rw [← rest, drop_drop, single, Nat.add_comm]

theorem scan_consumed (separator : Bytes) (fuel : Nat) (buf : Bytes) :
    (scan separator fuel buf).2 = 0 ↔ (scan separator fuel buf).1 = [] := by
  cases fuel with
  | zero => simp [scan]
  | succ fuel =>
    rw [scan]
    split
    · simp
    next len _ =>
      by_cases empty : len = 0
      · simp [empty]
      · simp [empty]

theorem split_strip (nonempty : separator ≠ []) {data : Bytes} (framable : Framable separator data) :
    (split separator (strip data)).1 = (split separator data).1.filter (· ≠ []) ∧
      (split separator (strip data)).2 = (split separator data).2 := by
  obtain ⟨lineEnd, full⟩ := framable
  have kept : (split separator (strip data)).1.filter (· ≠ []) = (split separator (strip data)).1 := by
    apply filter_eq_self.mpr
    intro segment member
    simpa using (full segment member).1
  cases data with
  | nil => exact ⟨kept.symm, rfl⟩
  | cons byte data =>
    cases isEnd : isLineEnd byte with
    | false =>
      rw [strip, isEnd] at kept ⊢
      exact ⟨kept.symm, rfl⟩
    | true =>
      obtain rfl := lineEnd byte rfl isEnd
      have found : Separator.find [byte] (byte :: data) = some 0 := by simp [Separator.find]
      rw [strip, isEnd] at kept ⊢
      rw [split_of_find nonempty found]
      simpa using kept.symm

theorem received_none (raw : config.format = .none) (nonempty : config.separator ≠ []) (clean : 0 ∉ config.separator)
    (conn : Conn) (bytes : Bytes) (absent : 0 ∉ conn.bufData ++ bytes)
    (framable : Framable config.separator (conn.bufData ++ bytes)) :
    (conn.received config bytes).1.bufData = (split config.separator (conn.bufData ++ bytes)).2 ∧
      (conn.received config bytes).2 =
        ((split config.separator (conn.bufData ++ bytes)).1.filter (· ≠ [])).map logRecord := by
  have absent : 0 ∉ strip (conn.bufData ++ bytes) := by
    intro member
    cases shape : conn.bufData ++ bytes with
    | nil => simp [shape, strip] at member
    | cons byte data =>
      rw [shape] at member absent
      simp only [strip] at member
      split at member
      · exact absent (mem_cons_of_mem _ member)
      · exact absent member
  obtain ⟨segments, rest⟩ := split_strip nonempty framable
  obtain ⟨texts, dropped⟩ := scan_eq nonempty clean _ absent (Nat.le_refl _) framable.2
  have together := scan_consumed config.separator (strip (conn.bufData ++ bytes)).length (strip (conn.bufData ++ bytes))
  rw [← segments, ← rest, ← texts, ← dropped]
  simp only [Conn.received, parsePayload, raw, parsePayloadNone]
  cases consumed : (scan config.separator (strip (conn.bufData ++ bytes)).length (strip (conn.bufData ++ bytes))).2 with
  | zero => simp [together.mp consumed]
  | succ more => simp [Conn.consume]

theorem framed_opened : Framed config (opened config) := by
  simp [Framed, opened, split, segments]

theorem framed_event (raw : config.format = .none) (nonempty : config.separator ≠ []) (clean : 0 ∉ config.separator)
    {session : Session} {incoming : Bytes} (framed : 0 ∉ session.stream → Framed config session)
    (reads : ReadsFramable config session incoming) (absent : 0 ∉ (tcpConnEvent config incoming session).stream) :
    Framed config (tcpConnEvent config incoming session) := by
  rcases event_cases config incoming session with
    ⟨stream, records, buffer, _⟩ | ⟨conn, isOpen, something, same, _, handled⟩
  · rw [stream] at absent
    rw [Framed, stream, records, buffer]
    exact framed absent
  · rw [handled] at absent ⊢
    obtain ⟨before, after⟩ := not_or.mp (mt mem_append.mpr absent)
    obtain ⟨records, rest⟩ := framed before
    have framable := reads isOpen something
    rw [← same] at framable
    have absent : 0 ∉ conn.bufData ++ arriving config session incoming := by
      rw [mem_append, same, rest, not_or]
      exact ⟨fun member => before (mem_of_mem_rest nonempty member), after⟩
    obtain ⟨buffer, appended⟩ := received_none raw nonempty clean conn _ absent framable
    rw [same, rest] at buffer appended
    rw [Framed, split_append nonempty, records, appended, buffer]
    simp

end

/-- In every run whose reads can be framed, the records are the segments of the stream that
are not empty, in order, and the buffer holds what follows the last one. -/
theorem framed_of_path {config : Config} (raw : config.format = .none) (nonempty : config.separator ≠ [])
    (clean : 0 ∉ config.separator) {session : Session}
    (path : Runs.Path (tcpConnEvent config) (ReadsFramable config) (opened config) session) (absent : 0 ∉ session.stream) :
    session.records = ((split config.separator session.stream).1.filter (· ≠ [])).map logRecord ∧
      session.conn.bufData = (split config.separator session.stream).2 := by
  have invariant := path.invariant (fun session => 0 ∉ session.stream → Framed config session)
    (fun _ => framed_opened) (fun session incoming framed reads => framed_event raw nonempty clean framed reads)
  exact invariant absent

def rawConfig (separator : Bytes) : Config where
  format := .none
  separator := separator
  chunkSize := 32768
  bufferSize := 32768
  atof := fun _ => 0

def lineReads : List Bytes := [[newline, 97, 98, newline, 99], [100, newline, 101]]

theorem framed_of_path_lines :
    (Runs.after (tcpConnEvent (rawConfig [newline])) (opened (rawConfig [newline])) lineReads).records =
        [logRecord [97, 98], logRecord [99, 100]] ∧
      (Runs.after (tcpConnEvent (rawConfig [newline])) (opened (rawConfig [newline])) lineReads).conn.bufData =
        [101] := by
  have path : Runs.Path (tcpConnEvent (rawConfig [newline])) (ReadsFramable (rawConfig [newline]))
      (opened (rawConfig [newline])) _ :=
    path_after lineReads ⟨fun _ _ => by decide +kernel, fun _ _ => by decide +kernel, trivial⟩
  obtain ⟨records, rest⟩ := framed_of_path rfl (by decide) (by decide) path (by decide +kernel)
  exact ⟨records.trans (by rfl), rest.trans (by decide +kernel)⟩

/-- Of a separator with two bytes only one is consumed. -/
theorem long_separator_left :
    ¬ ∀ (config : Config) (session : Session), config.format = .none → config.separator ≠ [] → 0 ∉ config.separator →
      Runs.Path (tcpConnEvent config) anyEvent (opened config) session → 0 ∉ session.stream →
        session.records = ((split config.separator session.stream).1.filter (· ≠ [])).map logRecord ∧
          session.conn.bufData = (split config.separator session.stream).2 := by
  intro claim
  -- the separator is `||`, and `a||b` is read
  have path : Runs.Path (tcpConnEvent (rawConfig [124, 124])) anyEvent (opened (rawConfig [124, 124])) _ :=
    path_after [[97, 124, 124, 98]] (admits_of_forall (fun _ _ => trivial) _ _)
  obtain ⟨_, rest⟩ := claim _ _ rfl (by decide) (by decide) path (by decide +kernel)
  revert rest
  decide +kernel

end FluentBit.InTcp
