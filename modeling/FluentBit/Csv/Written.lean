import FluentBit.Csv.Refinement

/-! Records written as comma separated fields, and what the parser tells of them. -/

set_option autoImplicit false

namespace FluentBit.Csv

open List
open Transducer Machine

/-- A field and how it is written; without quotes it has no byte that ends it and does not start with one. -/
structure WrittenField where
  text : Bytes
  quoted : Bool
  plain : quoted = false → (∀ byte ∈ text, ends byte = false) ∧ text.head? ≠ some quote

def WrittenField.bytes (field : WrittenField) : Bytes :=
  if field.quoted then quote :: double field.text ++ [quote] else field.text

inductive LineEnd where
  | lf | crlf
  deriving DecidableEq, Repr

def LineEnd.bytes : LineEnd → Bytes
  | .lf => [lineFeed]
  | .crlf => [carriageReturn, lineFeed]

structure WrittenRecord where
  fields : List WrittenField
  nonempty : fields ≠ []
  lineEnd : LineEnd

def WrittenRecord.bytes (record : WrittenRecord) : Bytes :=
  [comma].intercalate (record.fields.map (·.bytes)) ++ record.lineEnd.bytes

def written (records : List WrittenRecord) : Bytes := records.flatMap (·.bytes)

def WrittenRecord.events (callback : Bool) (record : WrittenRecord) : List Event :=
  (record.fields.flatMap fun field => told callback field.text) ++ [.record record.fields.length]

def expected (callback : Bool) (records : List WrittenRecord) : List Event :=
  records.flatMap (·.events callback)

variable {callback : Bool}

/-! ## One field -/

def awaits (count : Nat) : Machine := ⟨.initial, false, count⟩

theorem run_double (machine : Machine) (text word : Bytes) :
    run (step callback) (inQuoted machine text false) (double word) = ([], inQuoted machine (text ++ word) false) := by
  induction word generalizing text with
  | nil =>
    rw [append_nil]
    rfl
  | cons byte word ih =>
    have head : double (byte :: word) = double [byte] ++ double word := double_append [byte] word
    have one : run (step callback) (inQuoted machine text false) (double [byte]) =
        ([], inQuoted machine (text ++ [byte]) false) := by
      by_cases isQuote : byte = quote
      · subst isQuote
        have opened := @step_quote callback machine text false
        have closed := @step_quote callback machine (text ++ []) true
        rw [double_quote, run_cons, run_cons]
        rw [if_neg (by decide)] at opened
        rw [if_pos rfl] at closed
        rw [opened]
        simp only [Bool.not_false, closed]
        rw [append_nil]
        rfl
      · rw [double_other isQuote, run_cons, step_inside machine text isQuote]
        rfl
    rw [head, run_resumed one, ih, append_assoc]
    rfl

structure AtEnd (callback : Bool) (field : WrittenField) (count : Nat) (events : List Event) (machine : Machine) :
    Prop where
  initial : machine.mode = .initial
  fields : events ++ (machine.blank callback).1 = told callback field.text
  count : (machine.blank callback).2.fieldCount = count + 1

theorem run_quoted (count : Nat) (text : Bytes) :
    run (step callback) (awaits count) (quote :: double text ++ [quote]) = ([], inQuoted (awaits count) text true) := by
  have opened : run (step callback) (awaits count) [quote] = ([], inQuoted (awaits count) [] false) := rfl
  have inside : run (step callback) (inQuoted (awaits count) [] false) (double text) =
      ([], inQuoted (awaits count) text false) := run_double (awaits count) [] text
  have last := @step_quote callback (awaits count) text false
  rw [if_neg (by decide), append_nil] at last
  have started := run_resumed opened (double text ++ [quote])
  rw [run_resumed inside, run_cons, last] at started
  exact started

theorem run_plain (count : Nat) {first : UInt8} {text : Bytes}
    (inside : ∀ byte ∈ first :: text, ends byte = false) (other : first ≠ quote) :
    run (step callback) (awaits count) (first :: text) = ([], inSimple (awaits count) (first :: text)) := by
  have opened := @step_first callback (awaits count) rfl first (inside first mem_cons_self) other
  have simple := @run_simple callback (awaits count) [] (first :: text) inside
  rw [run_cons] at simple ⊢
  rw [opened]
  exact simple

theorem field_read (field : WrittenField) (count : Nat) (rest : Bytes) {byte : UInt8} (ending : ends byte = true) :
    ∃ events machine, AtEnd callback field count events machine ∧
      Continues (step callback) (awaits count) (field.bytes ++ byte :: rest) events machine (byte :: rest) := by
  obtain ⟨text, quoted, plain⟩ := field
  have atEnd : AtEnd callback ⟨text, quoted, plain⟩ count (told callback text) (awaits count).closed :=
    ⟨rfl, append_nil _, rfl⟩
  cases quoted with
  | true =>
    have other : byte ≠ quote := by
      rintro rfl
      cases ending
    have read := Continues.of_run (@run_quoted callback count text) (byte :: rest)
    exact ⟨_, _, atEnd, read.trans (closes_quoted (awaits count) text rest other)⟩
  | false =>
    obtain ⟨inside, opening⟩ := plain rfl
    cases text with
    | nil => exact ⟨[], awaits count, ⟨rfl, rfl, rfl⟩, .refl _ _⟩
    | cons first text =>
      have other : first ≠ quote := fun same => opening (congrArg some same)
      have read := Continues.of_run (@run_plain callback count first text inside other) (byte :: rest)
      exact ⟨_, _, atEnd, read.trans (closes_simple (awaits count) (first :: text) rest ending)⟩

variable {machine : Machine} {count : Nat}

theorem blank_eq (initial : machine.mode = .initial) (number : (machine.blank callback).2.fieldCount = count) :
    ({ (machine.blank callback).2 with fieldParsed := false } : Machine) = awaits count := by
  have mode : (machine.blank callback).2.mode = .initial := by
    rw [← initial]
    unfold blank
    split <;> rfl
  change Machine.mk _ _ _ = _
  rw [mode, number]
  rfl

theorem finish_eq {field : WrittenField} {events : List Event} (atEnd : AtEnd callback field count events machine) :
    events ++ (machine.finish callback).1 = told callback field.text ++ [.record (count + 1)] := by
  unfold finish
  rw [← append_assoc, atEnd.fields, atEnd.count]

theorem field_comma (field : WrittenField) (count : Nat) (rest : Bytes) :
    Continues (step callback) (awaits count) (field.bytes ++ comma :: rest) (told callback field.text)
      (awaits (count + 1)) rest := by
  obtain ⟨events, machine, atEnd, read⟩ := @field_read callback field count rest comma rfl
  have between : step callback machine comma = ((machine.blank callback).1, awaits (count + 1)) := by
    rw [← blank_eq atEnd.initial atEnd.count]
    unfold step
    rw [atEnd.initial]
    rfl
  have one := one_byte callback machine comma rest
  rw [between] at one
  have joined := read.trans one
  rw [atEnd.fields] at joined
  exact joined

theorem field_lineEnd (field : WrittenField) (count : Nat) (lineEnd : LineEnd) (rest : Bytes) :
    Continues (step callback) (awaits count) (field.bytes ++ (lineEnd.bytes ++ rest))
      (told callback field.text ++ [.record (count + 1)]) start rest := by
  cases lineEnd with
  | lf =>
    obtain ⟨events, machine, atEnd, read⟩ := @field_read callback field count rest lineFeed rfl
    have stepped : step callback machine lineFeed = machine.finish callback := by
      unfold step
      rw [atEnd.initial]
      rfl
    have one := one_byte callback machine lineFeed rest
    rw [stepped] at one
    have joined := read.trans one
    rw [finish_eq atEnd] at joined
    exact joined
  | crlf =>
    obtain ⟨events, machine, atEnd, read⟩ := @field_read callback field count (lineFeed :: rest) carriageReturn rfl
    have returned : step callback machine carriageReturn = ([], { machine with mode := .foundCr }) := by
      unfold step
      rw [atEnd.initial]
      rfl
    have fed : step callback { machine with mode := .foundCr } lineFeed = machine.finish callback :=
      finish_mode .foundCr
    have first := one_byte callback machine carriageReturn (lineFeed :: rest)
    have second := one_byte callback { machine with mode := .foundCr } lineFeed rest
    rw [returned] at first
    rw [fed] at second
    have joined := read.trans (first.trans second)
    rw [nil_append, finish_eq atEnd] at joined
    exact joined

theorem fields_read (fields : List WrittenField) (nonempty : fields ≠ []) (count : Nat) (lineEnd : LineEnd)
    (rest : Bytes) :
    Continues (step callback) (awaits count) ([comma].intercalate (fields.map (·.bytes)) ++ (lineEnd.bytes ++ rest))
      ((fields.flatMap fun field => told callback field.text) ++ [.record (count + fields.length)]) start rest := by
  induction fields generalizing count with
  | nil => exact absurd rfl nonempty
  | cons field fields ih =>
    cases fields with
    | nil =>
      have read := @field_lineEnd callback field count lineEnd rest
      simpa using read
    | cons second fields =>
      have first := @field_comma callback field count
        ([comma].intercalate ((second :: fields).map (·.bytes)) ++ (lineEnd.bytes ++ rest))
      have later := ih (cons_ne_nil _ _) (count + 1)
      have joined := first.trans later
      have size : count + 1 + (second :: fields).length = count + (field :: second :: fields).length := by
        simp only [length_cons]
        omega
      have shape : [comma].intercalate ((field :: second :: fields).map (·.bytes)) ++ (lineEnd.bytes ++ rest) =
          field.bytes ++ comma :: ([comma].intercalate ((second :: fields).map (·.bytes)) ++
            (lineEnd.bytes ++ rest)) := by
        rw [map_cons, map_cons, intercalate_cons_cons, append_assoc, append_assoc]
        rfl
      rw [size] at joined
      rw [shape, flatMap_cons, append_assoc]
      exact joined

theorem record_read (record : WrittenRecord) (rest : Bytes) :
    Continues (step callback) start (record.bytes ++ rest) (record.events callback) start rest := by
  have read := @fields_read callback record.fields record.nonempty 0 record.lineEnd rest
  rw [Nat.zero_add, ← append_assoc] at read
  exact read

theorem written_read (records : List WrittenRecord) :
    Continues (step callback) start (written records) (expected callback records) start [] := by
  induction records with
  | nil => exact .refl _ _
  | cons record records ih => exact (record_read record (written records)).trans ih

/-- However the text of the records is cut into calls, each call returns, and at every moment the callback has been
called with the first of the fields and the returns have told of the first of the records, in their order; nothing is
missing once the text is read, as it is after enough calls that are given some of it. -/
theorem parse_written (callback : Bool) (records : List WrittenRecord) (sizes : List Nat) :
    ∃ called, calls call (init callback) (written records) sizes = some called ∧
      (∃ missing, expected callback records = called.outputs ++ missing) ∧
      (called.rest = [] → called.outputs = expected callback records) ∧
      ((∀ size ∈ sizes, 0 < size) → 2 * (written records).length ≤ sizes.length → called.rest = []) := by
  have simulates := call_simulates callback
  obtain ⟨called, next, done, related, continues⟩ := simulates.calls (related_init callback) (written records) sizes
  have read := @written_read callback records
  have outputs : expected callback records = called.outputs ++ (run (step callback) next called.rest).1 := by
    have same := congrArg Prod.fst (read.symm.trans continues)
    simpa using same
  refine ⟨called, done, ⟨_, outputs⟩, ?_, ?_⟩
  · intro nothing
    rw [outputs, nothing]
    exact (append_nil _).symm
  · intro positive enough
    exact simulates.calls_all call_proceeds (related_init callback) (written records) positive
      (.inr enough) done

/-- A record whose doubled quote is cut in two. -/
example : calls call (init true) [0x22, 0x61, 0x22, 0x22, 0x22, 0x2c, 0x0d, 0x0a] [4, 3, 1] =
    some ⟨[.field [0x61, 0x22], .field [], .record 2], [], init true⟩ := rfl

end FluentBit.Csv
