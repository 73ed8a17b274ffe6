import FluentBit.Foundation.Ascii
import FluentBit.Foundation.Transducer

/-! The parser of `flb_csv.c`. Allocations do not fail; the buffer that a field
with quotes is unescaped into is only the text it is given to the callback with. -/

set_option autoImplicit false

namespace FluentBit.Csv

def comma : UInt8 := 0x2c

def lineFeed : UInt8 := 0x0a

def carriageReturn : UInt8 := 0x0d

def quote : UInt8 := 0x22

/-- `FLB_CSV_STATE_INITIAL` and the following ones -/
inductive Phase where
  | initial | startedSimple | startedDquote | foundDquote | foundCr
  deriving DecidableEq, Repr

/-- `struct flb_csv_state`; `callback` tells whether `field_callback` is set. -/
structure CsvState where
  callback : Bool
  bufferedData : Bytes
  offset : Nat
  start : Nat
  length : Nat
  fieldCount : Nat
  phase : Phase
  fieldParsed : Bool
  hasDquote : Bool
  deriving DecidableEq, Repr

def resetState (state : CsvState) : CsvState :=
  { state with
    start := 0, length := 0, hasDquote := false, fieldParsed := false, phase := .initial, bufferedData := [],
    offset := 0 }

def init (callback : Bool) : CsvState :=
  { callback, bufferedData := [], offset := 0, start := 0, length := 0, fieldCount := 0, phase := .initial,
    fieldParsed := false, hasDquote := false }

/-- The loop of `invoke_field_callback`: the byte after a quote is taken as it is. -/
def unescape : Bytes → Bytes
  | [] => []
  | [byte] => [byte]
  | first :: second :: rest => if first = quote then second :: unescape rest else first :: unescape (second :: rest)

/-- `invoke_field_callback`: the field the callback is called with. -/
def invokeFieldCallback (state : CsvState) (buf : Bytes) : Bytes :=
  let field := (buf.drop state.start).take state.length
  if state.hasDquote then unescape field else field

/-- `FLB_CSV_SUCCESS`, `FLB_CSV_EOF` and `FLB_CSV_INVALID_STATE` -/
inductive Return where
  | success | eof | invalidState
  deriving DecidableEq, Repr

def ends (byte : UInt8) : Bool := byte = comma || byte = lineFeed || byte = carriageReturn

/-- The loop of `parse_simple` over the bytes from the offset on. -/
def simpleLoop (state : CsvState) : Bytes → Return × CsvState
  | [] => (.eof, state)
  | byte :: rest =>
    if ends byte then (.success, { state with length := state.offset - state.start })
    else simpleLoop { state with offset := state.offset + 1 } rest

def parseSimple (state : CsvState) (buf : Bytes) : Return × CsvState :=
  simpleLoop state (buf.drop state.offset)

/-- The loop of `parse_quoted` over the bytes from the offset on. -/
def quotedLoop (state : CsvState) : Bytes → Return × CsvState
  | [] => (.eof, state)
  | byte :: rest =>
    if state.phase = .foundDquote then
      if byte = quote then
        quotedLoop { state with phase := .startedDquote, hasDquote := true, offset := state.offset + 1 } rest
      else (.success, { state with phase := .startedDquote, length := state.offset - state.start - 1 })
    else if byte = quote then quotedLoop { state with phase := .foundDquote, offset := state.offset + 1 } rest
    else quotedLoop { state with offset := state.offset + 1 } rest

def parseQuoted (state : CsvState) (buf : Bytes) : Return × CsvState :=
  quotedLoop state (buf.drop state.offset)

def openField (state : CsvState) (data : Bytes) : CsvState :=
  let state :=
    if data[state.offset]? = some quote then { state with offset := state.offset + 1, phase := .startedDquote }
    else { state with phase := .startedSimple }
  { state with start := state.offset }

/-- The switch of `parse_csv_field`. -/
def scanField (state : CsvState) (buf : Bytes) : Return × CsvState :=
  match state.phase with
  | .startedSimple => parseSimple state buf
  | .startedDquote | .foundDquote => parseQuoted state buf
  | .initial | .foundCr => (.invalidState, state)

/-- What `parse_csv_field` does with the field it parsed in `buf`, or saves of a field that does not end. -/
def settleField (buffered : Bool) (data buf : Bytes) (parsed : Return × CsvState) : Return × CsvState × List Bytes :=
  match parsed with
  | (.success, state) => (.success, state, if state.callback then [invokeFieldCallback state buf] else [])
  | (.eof, state) => (.eof, if buffered then state else { state with bufferedData := state.bufferedData ++ data }, [])
  | (.invalidState, state) => (.invalidState, state, [])

/-- `parse_csv_field`: the return, the state and the field the callback is called with.
A field that was opened before is parsed in the buffer, or where it goes on if no callback is set. -/
def parseCsvField (state : CsvState) (data : Bytes) : Return × CsvState × List Bytes :=
  if state.phase = .initial then settleField false data data (scanField (openField state data) data)
  else if state.callback then
    let buf := state.bufferedData ++ data
    settleField true data buf (scanField { state with bufferedData := buf } buf)
  else settleField false data data (scanField state data)

/-- What `flb_csv_parse_record` returns, with the number it leaves in `field_count` on success. -/
inductive RecordReturn where
  | success (fieldCount : Nat)
  | eof
  | invalidState
  deriving DecidableEq, Repr

structure Parsed where
  ret : RecordReturn
  fields : List Bytes
  rest : Bytes
  state : CsvState
  deriving DecidableEq, Repr

def Parsed.after (fields : List Bytes) (parsed : Parsed) : Parsed :=
  { parsed with fields := fields ++ parsed.fields }

def emptyField (state : CsvState) : List Bytes × CsvState :=
  if state.fieldParsed then ([], state)
  else (if state.callback then [[]] else [], { state with fieldCount := state.fieldCount + 1 })

/-- What follows the loop of `flb_csv_parse_record`. -/
def endRecord (state : CsvState) (rest : Bytes) : Parsed :=
  let (fields, state) := emptyField state
  ⟨.success state.fieldCount, fields, rest, { state with fieldParsed := false, fieldCount := 0 }⟩

def countField (state : CsvState) : CsvState :=
  { resetState state with fieldParsed := true, fieldCount := state.fieldCount + 1 }

def leave (state : CsvState) : CsvState := if state.callback then state else { state with offset := 0 }

/-- The loop of `flb_csv_parse_record`, for at most `fuel` rounds. -/
def parseRecordLoop : Nat → CsvState → Bytes → Option Parsed
  | 0, _, _ => none
  | _ + 1, state, [] => some ⟨.eof, [], [], state⟩
  | fuel + 1, state, byte :: rest =>
    if state.phase = .initial ∧ byte = carriageReturn then
      parseRecordLoop fuel { state with phase := .foundCr } rest
    else if state.phase = .initial ∧ byte = lineFeed then some (endRecord state rest)
    else if state.phase = .initial ∧ byte = comma then
      let (fields, state) := emptyField state
      (parseRecordLoop fuel { state with fieldParsed := false } rest).map (·.after fields)
    else if state.phase = .foundCr then
      some (endRecord { state with phase := .initial } (if byte = lineFeed then rest else byte :: rest))
    else
      match parseCsvField state (byte :: rest) with
      | (.success, after, fields) =>
        (parseRecordLoop fuel (countField after) ((byte :: rest).drop (after.offset - state.offset))).map
          (·.after fields)
      | (.eof, after, _) => some ⟨.eof, [], (byte :: rest).drop (after.offset - state.offset), leave after⟩
      | (.invalidState, after, _) =>
        some ⟨.invalidState, [], (byte :: rest).drop (after.offset - state.offset), leave after⟩

/-- `flb_csv_parse_record`; each byte takes two rounds at most. -/
def parseRecord (state : CsvState) (buf : Bytes) : Option Parsed :=
  parseRecordLoop (2 * buf.length + 2) state buf

/-- A call of the callback, or a return of `FLB_CSV_SUCCESS` with its number of fields. -/
inductive Event where
  | field (text : Bytes)
  | record (fieldCount : Nat)
  deriving DecidableEq, Repr

def Parsed.events (parsed : Parsed) : List Event :=
  parsed.fields.map .field ++
    match parsed.ret with
    | .success fieldCount => [.record fieldCount]
    | .eof | .invalidState => []

/-! Comma separated fields read byte by byte: the text of a field is known when it ends. -/

open List

inductive Mode where
  | initial
  | foundCr
  | simple (text : Bytes)
  | quoted (text : Bytes) (closing : Bool)
  deriving DecidableEq, Repr

structure Machine where
  mode : Mode
  fieldParsed : Bool
  fieldCount : Nat
  deriving DecidableEq, Repr

namespace Machine

def start : Machine := ⟨.initial, false, 0⟩

def told (callback : Bool) (text : Bytes) : List Event := if callback then [.field text] else []

def blank (callback : Bool) (machine : Machine) : List Event × Machine :=
  if machine.fieldParsed then ([], machine)
  else (told callback [], { machine with fieldCount := machine.fieldCount + 1 })

def finish (callback : Bool) (machine : Machine) : List Event × Machine :=
  ((machine.blank callback).1 ++ [.record (machine.blank callback).2.fieldCount], start)

def closed (machine : Machine) : Machine := ⟨.initial, true, machine.fieldCount + 1⟩

def between (callback : Bool) (machine : Machine) (byte : UInt8) : List Event × Machine :=
  if byte = carriageReturn then ([], { machine with mode := .foundCr })
  else if byte = lineFeed then machine.finish callback
  else if byte = comma then
    ((machine.blank callback).1, { (machine.blank callback).2 with fieldParsed := false })
  else ([], { machine with mode := if byte = quote then .quoted [] false else .simple [byte] })

def step (callback : Bool) (machine : Machine) (byte : UInt8) : List Event × Machine :=
  match machine.mode with
  | .initial => machine.between callback byte
  | .foundCr =>
    if byte = lineFeed then machine.finish callback
    else
      ((machine.finish callback).1 ++ (start.between callback byte).1, (start.between callback byte).2)
  | .simple text =>
    if ends byte then
      (told callback text ++ (machine.closed.between callback byte).1, (machine.closed.between callback byte).2)
    else ([], { machine with mode := .simple (text ++ [byte]) })
  | .quoted text false =>
    ([], { machine with mode := if byte = quote then .quoted text true else .quoted (text ++ [byte]) false })
  | .quoted text true =>
    if byte = quote then ([], { machine with mode := .quoted (text ++ [quote]) false })
    else (told callback text ++ (machine.closed.between callback byte).1, (machine.closed.between callback byte).2)

end Machine

open Transducer Machine

variable {callback : Bool}

theorem one_byte (callback : Bool) (machine : Machine) (byte : UInt8) (rest : Bytes) :
    Continues (step callback) machine (byte :: rest) (step callback machine byte).1 (step callback machine byte).2 rest :=
  .one byte rest

def inSimple (machine : Machine) (text : Bytes) : Machine := { machine with mode := .simple text }

def inQuoted (machine : Machine) (text : Bytes) (closing : Bool) : Machine :=
  { machine with mode := .quoted text closing }

def double (text : Bytes) : Bytes := text.flatMap fun byte => if byte = quote then [quote, quote] else [byte]

theorem double_append (first second : Bytes) : double (first ++ second) = double first ++ double second :=
  flatMap_append

theorem double_quote : double [quote] = [quote, quote] := rfl

variable {byte : UInt8}

theorem double_other (other : byte ≠ quote) : double [byte] = [byte] := by
  unfold double
  rw [flatMap_cons, if_neg other]
  rfl

theorem double_plain {text : Bytes} (plain : quote ∉ text) : double text = text := by
  induction text with
  | nil => rfl
  | cons byte text ih =>
    have other : byte ≠ quote := fun same => plain (same ▸ mem_cons_self)
    have rest := ih fun member => plain (mem_cons_of_mem _ member)
    have head := double_append [byte] text
    rw [double_other other, rest] at head
    exact head

theorem unescape_double (text : Bytes) : unescape (double text) = text := by
  induction text with
  | nil => rfl
  | cons byte text ih =>
    have head : double (byte :: text) = double [byte] ++ double text := double_append [byte] text
    rw [head]
    by_cases isQuote : byte = quote
    · subst isQuote
      change unescape (quote :: quote :: double text) = quote :: text
      rw [unescape, if_pos rfl, ih]
    · rw [double_other isQuote]
      cases rest : double text with
      | nil =>
        rw [rest] at ih
        rw [← ih]
        rfl
      | cons second rest' =>
        rw [singleton_append, unescape, if_neg isQuote, ← rest, ih]

theorem run_simple {machine : Machine} {text word : Bytes} (plain : ∀ byte ∈ word, ends byte = false) :
    run (step callback) (inSimple machine text) word = ([], inSimple machine (text ++ word)) := by
  induction word generalizing text with
  | nil => rw [append_nil]; rfl
  | cons byte word ih =>
    have one : step callback (inSimple machine text) byte = ([], inSimple machine (text ++ [byte])) := by
      unfold step inSimple
      simp [plain byte mem_cons_self]
    rw [run_cons, one, ih fun other member => plain other (mem_cons_of_mem _ member), append_assoc]
    rfl

theorem closes_simple (machine : Machine) (text rest : Bytes) (ending : ends byte = true) :
    Continues (step callback) (inSimple machine text) (byte :: rest) (told callback text) machine.closed
      (byte :: rest) := by
  have one : step callback (inSimple machine text) byte =
      (told callback text ++ (step callback machine.closed byte).1, (step callback machine.closed byte).2) := by
    unfold step inSimple closed
    simp [ending]
  unfold Continues
  rw [run_cons, run_cons, one, append_assoc]

theorem closes_quoted (machine : Machine) (text rest : Bytes) (other : byte ≠ quote) :
    Continues (step callback) (inQuoted machine text true) (byte :: rest) (told callback text) machine.closed
      (byte :: rest) := by
  have one : step callback (inQuoted machine text true) byte =
      (told callback text ++ (step callback machine.closed byte).1, (step callback machine.closed byte).2) := by
    unfold step inQuoted closed
    simp [other]
  unfold Continues
  rw [run_cons, run_cons, one, append_assoc]

/-! The loops over the bytes of a field against the machine, with a field that
starts, goes on or ends in the data. -/

open Bool

variable {callback : Bool}

/-- The loop takes from a simple field what the machine takes. -/
theorem simpleLoop_spec (state : CsvState) (machine : Machine) (text bytes : Bytes) :
    (run (step callback) (inSimple machine text) bytes = ([], inSimple machine (text ++ bytes)) ∧
      simpleLoop state bytes = (.eof, { state with offset := state.offset + bytes.length })) ∨
    ∃ word rest, bytes = word ++ rest ∧ (∃ byte tail, rest = byte :: tail ∧ ends byte = true) ∧
      Continues (step callback) (inSimple machine text) bytes (told callback (text ++ word)) machine.closed rest ∧
      simpleLoop state bytes = (.success,
        { state with offset := state.offset + word.length, length := state.offset + word.length - state.start }) := by
  induction bytes generalizing state text with
  | nil =>
    left
    rw [append_nil]
    exact ⟨rfl, rfl⟩
  | cons byte bytes ih =>
    unfold simpleLoop
    by_cases ending : ends byte = true
    · right
      refine ⟨[], byte :: bytes, rfl, ⟨byte, bytes, rfl, ending⟩, ?_, ?_⟩
      · rw [append_nil]
        exact closes_simple machine text bytes ending
      · rw [if_pos ending]
        rfl
    · have plain : ∀ other ∈ [byte], ends other = false := by
        intro other member
        cases mem_singleton.mp member
        exact eq_false_iff.mpr ending
      have one := @run_simple callback machine text [byte] plain
      rw [if_neg ending]
      obtain ⟨inside, loop⟩ | ⟨word, rest, rfl, stop, closes, loop⟩ :=
        ih { state with offset := state.offset + 1 } (text ++ [byte])
      · left
        rw [loop, length_cons, Nat.add_assoc, Nat.add_comm 1]
        have joined := run_resumed one bytes
        rw [singleton_append, inside, append_assoc] at joined
        exact ⟨joined, rfl⟩
      · right
        refine ⟨byte :: word, rest, rfl, stop, ?_, ?_⟩
        · have first := Continues.of_run one (word ++ rest)
          have joined := first.trans closes
          rw [append_assoc] at joined
          exact joined
        · rw [loop, length_cons, Nat.add_assoc, Nat.add_comm 1]

/-! ## With quotes -/

def raw (text : Bytes) (closing : Bool) : Bytes := double text ++ if closing then [quote] else []

def quotedPhase (closing : Bool) : Phase := if closing then .foundDquote else .startedDquote

variable {byte : UInt8}

theorem step_inside (machine : Machine) (text : Bytes) (other : byte ≠ quote) :
    step callback (inQuoted machine text false) byte = ([], inQuoted machine (text ++ [byte]) false) := by
  unfold step inQuoted
  simp [other]

theorem step_quote (machine : Machine) (text : Bytes) (closing : Bool) :
    step callback (inQuoted machine text closing) quote =
      ([], inQuoted machine (text ++ if closing then [quote] else []) !closing) := by
  cases closing with
  | false =>
    rw [if_neg (by decide), append_nil]
    rfl
  | true => rfl

theorem raw_quote (text : Bytes) (closing : Bool) :
    raw text closing ++ [quote] = raw (text ++ if closing then [quote] else []) !closing := by
  unfold raw
  cases closing with
  | false => simp
  | true =>
    simp [double_append, double_quote]

theorem raw_inside (text : Bytes) (other : byte ≠ quote) : raw text false ++ [byte] = raw (text ++ [byte]) false := by
  unfold raw
  simp [double_append, double_other other]

inductive QuotedLoop (callback : Bool) (state : CsvState) (machine : Machine) (text bytes : Bytes)
    (closing : Bool) : Prop where
  | goesOn (added : Bytes) (closing' : Bool) :
      run (step callback) (inQuoted machine text closing) bytes = ([], inQuoted machine (text ++ added) closing') →
      raw text closing ++ bytes = raw (text ++ added) closing' →
      quotedLoop state bytes = (.eof,
        { state with
          phase := quotedPhase closing', offset := state.offset + bytes.length
          hasDquote := state.hasDquote || decide (quote ∈ added) }) →
      QuotedLoop callback state machine text bytes closing
  | ended (added word rest : Bytes) :
      bytes = word ++ rest → raw text closing ++ word = raw (text ++ added) true →
      Continues (step callback) (inQuoted machine text closing) bytes (told callback (text ++ added)) machine.closed
        rest →
      quotedLoop state bytes = (.success,
        { state with
          phase := .startedDquote, offset := state.offset + word.length
          hasDquote := state.hasDquote || decide (quote ∈ added)
          length := state.offset + word.length - state.start - 1 }) →
      QuotedLoop callback state machine text bytes closing

theorem QuotedLoop.cons {state next : CsvState} {machine : Machine} {text more bytes : Bytes} {byte : UInt8}
    {closing closing' : Bool}
    (one : step callback (inQuoted machine text closing) byte = ([], inQuoted machine (text ++ more) closing'))
    (read : raw text closing ++ [byte] = raw (text ++ more) closing')
    (loop : quotedLoop state (byte :: bytes) = quotedLoop next bytes)
    (nextState : next = { state with
        phase := quotedPhase closing', offset := state.offset + 1
        hasDquote := state.hasDquote || decide (quote ∈ more) })
    (later : QuotedLoop callback next machine (text ++ more) bytes closing') :
    QuotedLoop callback state machine text (byte :: bytes) closing := by
  subst nextState
  have first : Continues (step callback) (inQuoted machine text closing) (byte :: bytes) []
      (inQuoted machine (text ++ more) closing') bytes := by
    unfold Continues
    rw [run_cons, one]
  have bytesRead : ∀ word, raw text closing ++ byte :: word = raw (text ++ more) closing' ++ word := by
    intro word
    rw [← read, append_assoc, singleton_append]
  have offsets : ∀ count, state.offset + 1 + count = state.offset + (count + 1) := by
    intro count
    omega
  have flags : ∀ added : Bytes, (state.hasDquote || decide (quote ∈ more) || decide (quote ∈ added)) =
      (state.hasDquote || decide (quote ∈ more ++ added)) := by
    intro added
    simp [Bool.or_assoc]
  cases later with
  | goesOn added last inside whole rest =>
    rw [append_assoc] at inside whole
    refine .goesOn (more ++ added) last ?_ ((bytesRead bytes).trans whole) ?_
    · rw [run_cons, one, inside]
      rfl
    · rw [loop, rest]
      simp [flags, offsets]
  | ended added word rest parts whole closes last =>
    subst parts
    rw [append_assoc] at whole closes
    refine .ended (more ++ added) (byte :: word) rest rfl ((bytesRead word).trans whole) (first.trans closes) ?_
    rw [loop, last]
    simp [flags, offsets]

/-- The same for a quoted field. -/
theorem quotedLoop_spec (state : CsvState) (machine : Machine) (text bytes : Bytes) (closing : Bool)
    (phase : state.phase = quotedPhase closing) : QuotedLoop callback state machine text bytes closing := by
  induction bytes generalizing state text closing with
  | nil =>
    refine .goesOn [] closing ?_ ?_ ?_
    · rw [append_nil]
      rfl
    · rw [append_nil, append_nil]
    · unfold quotedLoop
      rw [← phase]
      simp
  | cons byte bytes ih =>
    by_cases isQuote : byte = quote
    · subst isQuote
      refine .cons (step_quote machine text closing) (raw_quote text closing) ?_ rfl (ih _ _ _ rfl)
      conv => lhs; unfold quotedLoop
      cases closing with
      | false | true => simp [phase, quotedPhase]
    · cases closing with
      | false =>
        refine .cons (step_inside machine text isQuote) (raw_inside text isQuote) ?_ rfl (ih _ _ _ rfl)
        conv => lhs; unfold quotedLoop
        have absent : quote ∉ [byte] := fun member => isQuote (mem_singleton.mp member).symm
        simp [phase, quotedPhase, isQuote, absent]
      | true =>
        refine .ended [] [] (byte :: bytes) rfl ?_ ?_ ?_
        · rw [append_nil, append_nil]
        · rw [append_nil]
          exact closes_quoted machine text bytes isQuote
        · unfold quotedLoop
          simp [phase, quotedPhase, isQuote]

end FluentBit.Csv
