import FluentBit.Foundation.Ascii
import FluentBit.Foundation.Runs
import FluentBit.Foundation.Segments

/-! A stream connection of the syslog input, after `plugins/in_syslog/syslog_conn.c` and
`syslog_prot.c`, with the messages that it hands to the parser. An allocation does not fail.

The stream falls into segments that a line feed or a zero byte ends. The messages are the segments
that are not empty, as long as no empty one follows a message in the buffer. -/

set_option autoImplicit false

namespace FluentBit.InSyslog

open List Ascii Runs

/-- The limits of `struct flb_syslog`. -/
structure Config where
  bufferChunkSize : Nat
  bufferMaxSize : Nat

/-- `struct syslog_conn`; the buffer holds `buf_len` bytes and a zero byte behind them. -/
structure Conn where
  bufData : Bytes
  bufParsed : Nat
  bufSize : Nat

def isEnd (byte : UInt8) : Bool := byte == newline || byte == 0

/-- The loop of `syslog_prot_process`, with the index of `eof`: the messages, and the buffer with
what is parsed of it. An empty message is removed by a shift of the whole buffer. -/
def processLoop : Nat → Nat → Nat → Bytes → List Bytes × Nat × Bytes
  | 0, _, parsed, data => ([], parsed, data)
  | fuel + 1, eof, parsed, data =>
    if data.length ≤ eof then ([], parsed, data)
    else
      let message := (data.drop parsed).takeWhile fun byte => !isEnd byte
      if parsed + message.length = data.length then ([], parsed, data)
      else if message = [] then
        if data.length = 1 then ([], 0, data.drop 1) else processLoop fuel parsed 0 (data.drop 1)
      else
        let next := parsed + message.length + 1
        let (later, parsed, data) := processLoop fuel next next data
        (message :: later, parsed, data)

/-- `syslog_prot_process`. Each round shifts the buffer, or parses a message of it. -/
def syslogProtProcess (conn : Conn) : List Bytes × Conn :=
  let size := conn.bufData.length + 1
  let (messages, parsed, data) := processLoop (size * size) 0 conn.bufParsed conn.bufData
  (messages, { conn with bufData := data.drop parsed, bufParsed := 0 })

structure Session where
  conn : Conn
  closed : Bool
  stream : Bytes
  messages : List Bytes

/-- `syslog_conn_add` -/
def opened (config : Config) : Session where
  conn := { bufData := [], bufParsed := 0, bufSize := config.bufferChunkSize }
  closed := false
  stream := []
  messages := []

def Conn.available (conn : Conn) : Nat := conn.bufSize - conn.bufData.length - 1

def Conn.reserve (config : Config) (conn : Conn) : Option Conn :=
  if conn.available < 1 then
    if config.bufferMaxSize < conn.bufSize + config.bufferChunkSize then none
    else some { conn with bufSize := conn.bufSize + config.bufferChunkSize }
  else some conn

def arriving (config : Config) (session : Session) (incoming : Bytes) : Bytes :=
  match session.conn.reserve config with
  | none => []
  | some conn => incoming.take conn.available

/-- `syslog_stream_conn_event` for `MK_EVENT_READ` -/
def syslogStreamConnEvent (config : Config) (incoming : Bytes) (session : Session) : Session :=
  if session.closed then session
  else
    match session.conn.reserve config with
    | none => { session with closed := true }
    | some conn =>
      let bytes := incoming.take conn.available
      if bytes = [] then { session with conn, closed := true }
      else
        let (messages, next) := syslogProtProcess { conn with bufData := conn.bufData ++ bytes }
        { session with
          conn := next
          stream := session.stream ++ bytes
          messages := session.messages ++ messages }

open Segments (split)

def Tidy (data : Bytes) : Prop := [] ∉ (split isEnd data).1.dropWhile (· = [])

instance (data : Bytes) : Decidable (Tidy data) := inferInstanceAs (Decidable (_ ∉ _))

def ReadsTidy (config : Config) (session : Session) (incoming : Bytes) : Prop :=
  session.closed = false → arriving config session incoming ≠ [] →
    Tidy (session.conn.bufData ++ arriving config session incoming)

variable {data : Bytes}

theorem processLoop_messages {fuel parsed : Nat} (inside : parsed ≤ data.length) (enough : (data.drop parsed).length < fuel)
    (full : [] ∉ (split isEnd (data.drop parsed)).1) :
    ∃ next, processLoop fuel parsed parsed data = ((split isEnd (data.drop parsed)).1, next, data) ∧
      data.drop next = (split isEnd (data.drop parsed)).2 := by
  induction fuel generalizing parsed with
  | zero => omega
  | succ fuel ih =>
    rw [length_drop] at enough
    rcases Segments.word_cases isEnd (data.drop parsed) with ⟨word, shape⟩ | ⟨symbol, later, ends, parts, shape⟩
    · refine ⟨parsed, ?_, by rw [shape]⟩
      have whole : parsed + (data.drop parsed).length = data.length := by
        rw [length_drop]
        omega
      rw [processLoop, word, shape]
      simp only [whole, if_true, ite_self]
    · rw [shape] at full ⊢
      have width := congrArg List.length parts
      simp only [length_drop, length_append, length_cons] at width
      obtain ⟨nonempty, full⟩ := not_or.mp (mt mem_cons.mpr full)
      have behind : data.drop (parsed + ((data.drop parsed).takeWhile fun byte => !isEnd byte).length + 1) = later := by
        rw [Nat.add_assoc, ← drop_drop, Segments.drop_word parts]
      rw [← behind] at full
      obtain ⟨next, processed, rest⟩ := @ih
        (parsed + ((data.drop parsed).takeWhile fun byte => !isEnd byte).length + 1) (by omega)
        (by rw [length_drop]; omega) full
      refine ⟨next, ?_, by rw [rest, behind]⟩
      rw [processLoop, if_neg (by omega)]
      simp only
      rw [if_neg (by omega), if_neg (Ne.symm nonempty), processed, behind]

theorem processLoop_tidy {fuel : Nat} (enough : data.length < fuel) (tidy : Tidy data) :
    ∃ next kept, processLoop fuel 0 0 data = ((split isEnd data).1.filter (· ≠ []), next, kept) ∧
      kept.drop next = (split isEnd data).2 := by
  induction data generalizing fuel with
  | nil =>
    cases fuel with
    | zero => omega
    | succ fuel => exact ⟨0, [], rfl, rfl⟩
  | cons byte data ih =>
    cases ends : isEnd byte with
    | true =>
      -- an empty line at the head of the buffer is removed
      rw [Tidy, Segments.split_cons_end ends, dropWhile_cons] at tidy
      rw [length_cons] at enough
      cases fuel with
      | zero => omega
      | succ fuel =>
        obtain ⟨next, kept, processed, rest⟩ := @ih fuel (by omega) (by simpa [Tidy] using tidy)
        have empty : (byte :: data).takeWhile (fun byte => !isEnd byte) = [] := by simp [ends]
        rw [Segments.split_cons_end ends]
        cases data with
        | nil => exact ⟨0, [], by simp [processLoop, ends], rfl⟩
        | cons other data =>
          refine ⟨next, kept, ?_, rest⟩
          simp only [processLoop, drop_zero, empty, drop_succ_cons, processed]
          simp
    | false =>
      have full : [] ∉ (split isEnd (byte :: data)).1 := by
        rcases Segments.word_cases isEnd (byte :: data) with ⟨_, shape⟩ | ⟨symbol, later, _, _, shape⟩
        · simp [shape]
        · rw [Tidy, shape, takeWhile_cons] at tidy
          rw [shape, takeWhile_cons]
          simpa [ends] using tidy
      have kept : (split isEnd (byte :: data)).1.filter (· ≠ []) = (split isEnd (byte :: data)).1 := by
        apply filter_eq_self.mpr
        intro segment member
        simp only [ne_eq, decide_not, Bool.not_eq_eq_eq_not, Bool.not_true, decide_eq_false_iff_not]
        rintro rfl
        exact full member
      obtain ⟨next, processed, rest⟩ := @processLoop_messages (byte :: data) _ 0 (Nat.zero_le _) enough full
      exact ⟨next, byte :: data, by rw [kept]; exact processed, rest⟩

theorem syslogProtProcess_tidy {conn : Conn} (fresh : conn.bufParsed = 0) (tidy : Tidy conn.bufData) :
    syslogProtProcess conn = ((split isEnd conn.bufData).1.filter (· ≠ []),
        { conn with bufData := (split isEnd conn.bufData).2, bufParsed := 0 }) := by
  have enough : conn.bufData.length < (conn.bufData.length + 1) * (conn.bufData.length + 1) := by
    rw [Nat.add_mul]
    omega
  obtain ⟨next, kept, processed, rest⟩ := processLoop_tidy enough tidy
  simp [syslogProtProcess, fresh, processed, rest]

/-! ### Runs -/

section

variable {config : Config}

structure Framed (session : Session) : Prop where
  messages : session.messages = (split isEnd session.stream).1.filter (· ≠ [])
  rest : session.conn.bufData = (split isEnd session.stream).2
  fresh : session.conn.bufParsed = 0

theorem reserve_eq {conn larger : Conn} (reserved : conn.reserve config = some larger) :
    larger.bufData = conn.bufData ∧ larger.bufParsed = conn.bufParsed := by
  unfold Conn.reserve at reserved
  split at reserved
  · split at reserved
    · cases reserved
    · cases reserved
      exact ⟨rfl, rfl⟩
  · cases reserved
    exact ⟨rfl, rfl⟩

theorem framed_opened : Framed (opened config) := ⟨rfl, rfl, rfl⟩

theorem framed_event {session : Session} {incoming : Bytes} (framed : Framed session)
    (reads : ReadsTidy config session incoming) : Framed (syslogStreamConnEvent config incoming session) := by
  unfold ReadsTidy arriving at reads
  unfold syslogStreamConnEvent
  split
  · exact framed
  next isOpen =>
    have isOpen : session.closed = false := by simpa using isOpen
    cases reserved : session.conn.reserve config with
    | none => exact ⟨framed.messages, framed.rest, framed.fresh⟩
    | some conn =>
      obtain ⟨sameData, sameParsed⟩ := reserve_eq reserved
      rw [reserved] at reads
      simp only
      split
      · exact ⟨framed.messages, sameData.trans framed.rest, sameParsed.trans framed.fresh⟩
      next something =>
        have tidy := reads isOpen something
        rw [← sameData] at tidy
        have joined := @Segments.split_append _ isEnd session.stream (incoming.take conn.available)
        rw [@syslogProtProcess_tidy { conn with bufData := conn.bufData ++ incoming.take conn.available }
          (sameParsed.trans framed.fresh) tidy]
        refine ⟨?_, ?_, rfl⟩
        · simp [joined, framed.messages, sameData, framed.rest]
        · simp [joined, sameData, framed.rest]

end

/-- In every run in which no read leaves an empty line behind a message in the buffer, the messages
are the segments of the stream that are not empty, in order, and the rest is in the buffer. -/
theorem messages_of_path {config : Config} {session : Session}
    (path : Runs.Path (syslogStreamConnEvent config) (ReadsTidy config) (opened config) session) :
    session.messages = (split isEnd session.stream).1.filter (· ≠ []) ∧
      session.conn.bufData = (split isEnd session.stream).2 := by
  have framed := path.invariant Framed framed_opened fun session incoming framed reads => framed_event framed reads
  exact ⟨framed.messages, framed.rest⟩

def smallConfig : Config where
  bufferChunkSize := 32
  bufferMaxSize := 64

theorem messages_of_path_cut : (Runs.after (syslogStreamConnEvent smallConfig) (opened smallConfig)
        [[newline, 97, 98, 0, 99], [100, newline, 101]]).messages = [[97, 98], [99, 100]] := by
  have path : Runs.Path (syslogStreamConnEvent smallConfig) (ReadsTidy smallConfig) (opened smallConfig) _ :=
    path_after [[newline, 97, 98, 0, 99], [100, newline, 101]]
      ⟨fun _ _ => by decide +kernel, fun _ _ => by decide +kernel, trivial⟩
  exact (messages_of_path path).1.trans (by decide +kernel)

/-- An empty line behind a message brings the message back, without its first byte. -/
theorem empty_line_repeats : ¬ ∀ (config : Config) (session : Session),
      Runs.Path (syslogStreamConnEvent config) anyEvent (opened config) session →
        session.messages = (split isEnd session.stream).1.filter (· ≠ []) ∧
          session.conn.bufData = (split isEnd session.stream).2 := by
  intro claim
  -- `ab`, an empty line and `c` are read at once
  have path := reached (syslogStreamConnEvent smallConfig) (opened smallConfig)
    [[97, 98, newline, newline, 99, newline]]
  obtain ⟨messages, _⟩ := claim _ _ path
  revert messages
  decide +kernel

end FluentBit.InSyslog
