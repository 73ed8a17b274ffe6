import FluentBit.Csv.Parser

/-! `flb_csv_parse_record` does the work of the machine, whatever the data is cut into. -/

set_option autoImplicit false

namespace FluentBit.Csv

open List Nat Bool
open Transducer Machine

def Mode.read : Mode → Bytes × Nat × Bool
  | .initial | .foundCr => ([], 0, false)
  | .simple text => (text, 0, false)
  | .quoted text closing => (quote :: raw text closing, 1, decide (quote ∈ text))

def Mode.phase : Mode → Phase
  | .initial => .initial
  | .foundCr => .foundCr
  | .simple _ => .startedSimple
  | .quoted _ closing => quotedPhase closing

def Mode.isField : Mode → Bool
  | .initial | .foundCr => false
  | .simple _ | .quoted _ _ => true

structure Follows (callback : Bool) (state : CsvState) (machine : Machine) : Prop where
  sameCallback : state.callback = callback
  fieldCount : state.fieldCount = machine.fieldCount
  fieldParsed : state.fieldParsed = machine.fieldParsed
  phase : state.phase = machine.mode.phase

structure Holds (state : CsvState) (mode : Mode) (buf unread : Bytes) : Prop where
  buf : buf = mode.read.1 ++ unread
  offset : state.offset = mode.read.1.length
  start : state.start = mode.read.2.1
  hasDquote : state.hasDquote = mode.read.2.2

/-- Between two calls: what has been read is kept for the callback, and without one there is no offset. -/
structure Related (callback : Bool) (state : CsvState) (machine : Machine) : Prop extends
    Follows callback state machine where
  held : callback = true → Holds state machine.mode state.bufferedData []
  fresh : callback = false → state.offset = 0

/-- Before the switch of `parse_csv_field`. -/
structure Ready (callback : Bool) (state : CsvState) (machine : Machine) (buf unread : Bytes) : Prop extends
    Follows callback state machine where
  ahead : buf.drop state.offset = unread
  held : callback = true → Holds state machine.mode buf unread

theorem related_init (callback : Bool) : Related callback (init callback) start where
  sameCallback := rfl
  fieldCount := rfl
  fieldParsed := rfl
  phase := rfl
  held _ := ⟨rfl, rfl, rfl, rfl⟩
  fresh _ := rfl

variable {callback : Bool}

/-! ## One field -/

def Stops : Mode → Bytes → Prop
  | .simple _, rest => ∃ byte tail, rest = byte :: tail ∧ ends byte = true
  | _, _ => True

inductive Scanned (callback : Bool) (state : CsvState) (machine : Machine) (buf unread : Bytes) : Prop where
  | goesOn (after : CsvState) (next : Machine) :
      scanField state buf = (.eof, after) → run (step callback) machine unread = ([], next) →
      next.mode.isField = true → after.offset = state.offset + unread.length →
      after.bufferedData = state.bufferedData → Ready callback after next buf [] →
      Scanned callback state machine buf unread
  | ended (after : CsvState) (word rest : Bytes) :
      scanField state buf = (.success, after) → unread = word ++ rest → Stops machine.mode rest → after.offset = state.offset + word.length →
      after.callback = callback → after.fieldCount = machine.fieldCount →
      Continues (step callback) machine unread
        ((if after.callback then [invokeFieldCallback after buf] else []).map .field) machine.closed rest →
      Scanned callback state machine buf unread

variable {buf unread data rest : Bytes} {state : CsvState} {machine next middle : Machine}
  {result : Option Parsed}

theorem drop_whole {offset : Nat} (known : buf.drop offset = unread) : buf.drop (offset + unread.length) = [] := by
  rw [← drop_drop, known, drop_length]

theorem told_eq {text field : Bytes} (same : state.callback = callback) (value : callback = true → field = text) :
    (if state.callback then [field] else []).map Event.field = told callback text := by
  rw [same]
  cases callback with
  | false => rfl
  | true => rw [value rfl]; rfl

theorem scanField_simple {state : CsvState} {machine : Machine} {text buf unread : Bytes}
    (ready : Ready callback state (inSimple machine text) buf unread) :
    Scanned callback state (inSimple machine text) buf unread := by
  have phase : state.phase = .startedSimple := ready.phase
  have scanned : scanField state buf = simpleLoop state unread := by
    unfold scanField parseSimple
    simp [phase, ready.ahead]
  obtain ⟨inside, loop⟩ | ⟨word, rest, rfl, stop, closes, loop⟩ := @simpleLoop_spec callback state machine text unread
  · refine .goesOn _ _ (scanned.trans loop) inside rfl rfl rfl ?_
    refine { sameCallback := ready.sameCallback, fieldCount := ready.fieldCount, fieldParsed := ready.fieldParsed,
             phase, ahead := drop_whole ready.ahead, held := fun isSet => ?_ }
    have held := ready.held isSet
    refine ⟨?_, ?_, held.start, held.hasDquote⟩
    · rw [append_nil]
      exact held.buf
    · change state.offset + unread.length = (text ++ unread).length
      rw [held.offset, length_append]
      rfl
  · refine .ended _ word rest (scanned.trans loop) rfl stop rfl ready.sameCallback ready.fieldCount ?_
    have field : callback = true → invokeFieldCallback
        { state with offset := state.offset + word.length, length := state.offset + word.length - state.start } buf =
          text ++ word := by
      intro isSet
      have held := ready.held isSet
      have noQuotes : state.hasDquote = false := held.hasDquote
      have atStart : state.start = 0 := held.start
      have offset : state.offset = text.length := held.offset
      have whole : buf = (text ++ word) ++ rest := held.buf.trans (append_assoc ..).symm
      unfold invokeFieldCallback
      simp only [noQuotes, false_eq_true, if_false, atStart, drop_zero, Nat.sub_zero, offset]
      rw [whole, ← length_append, take_left]
    rw [told_eq ready.sameCallback field]
    exact closes

theorem scanField_quoted {state : CsvState} {machine : Machine} {text buf unread : Bytes} {closing : Bool}
    (ready : Ready callback state (inQuoted machine text closing) buf unread) :
    Scanned callback state (inQuoted machine text closing) buf unread := by
  have phase : state.phase = quotedPhase closing := ready.phase
  have scanned : scanField state buf = quotedLoop state unread := by
    unfold scanField parseQuoted
    cases closing <;> simp only [phase, quotedPhase, false_eq_true, if_false, if_true, ready.ahead]
  have flags : ∀ added : Bytes, callback = true → (state.hasDquote || decide (quote ∈ added)) =
      decide (quote ∈ text ++ added) := by
    intro added isSet
    have known : state.hasDquote = decide (quote ∈ text) := (ready.held isSet).hasDquote
    simp [known]
  cases @quotedLoop_spec callback state machine text unread closing phase with
  | goesOn added closing' inside read loop =>
    refine .goesOn _ _ (scanned.trans loop) inside rfl rfl rfl ?_
    refine { sameCallback := ready.sameCallback, fieldCount := ready.fieldCount, fieldParsed := ready.fieldParsed,
             phase := rfl, ahead := drop_whole ready.ahead, held := fun isSet => ?_ }
    have held := ready.held isSet
    refine ⟨?_, ?_, held.start, flags added isSet⟩
    · rw [append_nil]
      change buf = quote :: raw (text ++ added) closing'
      rw [← read]
      exact held.buf
    · change state.offset + unread.length = (quote :: raw (text ++ added) closing').length
      rw [← read, held.offset, length_cons, length_append]
      change (raw text closing).length + 1 + unread.length = _
      omega
  | ended added word rest parts read closes loop =>
    subst parts
    refine .ended _ word rest (scanned.trans loop) rfl trivial rfl ready.sameCallback ready.fieldCount ?_
    have field : callback = true → invokeFieldCallback { state with
          phase := .startedDquote, offset := state.offset + word.length
          hasDquote := state.hasDquote || decide (quote ∈ added)
          length := state.offset + word.length - state.start - 1 } buf = text ++ added := by
      intro isSet
      have held := ready.held isSet
      have atStart : state.start = 1 := held.start
      have offset : state.offset = (raw text closing).length + 1 := held.offset
      have body : raw text closing ++ word = double (text ++ added) ++ [quote] := read
      have whole : buf.drop 1 = double (text ++ added) ++ ([quote] ++ rest) := by
        have parts : buf = quote :: (raw text closing ++ word) ++ rest := held.buf.trans (append_assoc ..).symm
        rw [parts, body, ← append_assoc]
        rfl
      have size : state.offset + word.length - 1 - 1 = (double (text ++ added)).length := by
        have sum := congrArg List.length body
        rw [length_append, length_append, length_singleton] at sum
        omega
      unfold invokeFieldCallback
      simp only [atStart, size, whole, take_left, flags added isSet]
      by_cases quotes : quote ∈ text ++ added
      · rw [if_pos (decide_eq_true quotes), unescape_double]
      · rw [if_neg (by rw [decide_eq_false quotes]; exact Bool.false_ne_true), double_plain quotes]
    rw [told_eq ready.sameCallback field]
    exact closes

theorem scanField_spec (ready : Ready callback state machine buf unread) (field : machine.mode.isField = true) :
    Scanned callback state machine buf unread := by
  obtain ⟨mode, parsed, count⟩ := machine
  cases mode with
  | initial => cases field
  | foundCr => cases field
  | simple text => exact @scanField_simple callback state ⟨.initial, parsed, count⟩ text buf unread ready
  | quoted text closing => exact @scanField_quoted callback state ⟨.initial, parsed, count⟩ text buf unread closing ready

/-- What `parse_csv_field` comes to for a field that it opens or goes on with. -/
inductive FieldParsed (callback : Bool) (state : CsvState) (machine : Machine) (data : Bytes) : Prop where
  | goesOn (after : CsvState) (next : Machine) :
      parseCsvField state data = (.eof, after, []) → run (step callback) machine data = ([], next) →
      data.drop (after.offset - state.offset) = [] → Related callback (leave after) next →
      FieldParsed callback state machine data
  | ended (after : CsvState) (fields : List Bytes) (word rest : Bytes) :
      parseCsvField state data = (.success, after, fields) → data = word ++ rest →
      data.drop (after.offset - state.offset) = rest → (machine.mode = .initial → word ≠ []) →
      after.callback = callback → after.fieldCount = machine.fieldCount →
      Continues (step callback) machine data (fields.map .field) machine.closed rest →
      FieldParsed callback state machine data

theorem related_leave {after : CsvState} {saved : Bytes} (ready : Ready callback after next buf [])
    (same : callback = true → saved = buf) : Related callback (leave { after with bufferedData := saved }) next := by
  have set := ready.sameCallback
  unfold leave
  cases callback with
  | true =>
    simp only [set, if_true]
    refine { sameCallback := rfl, fieldCount := ready.fieldCount, fieldParsed := ready.fieldParsed,
             phase := ready.phase, held := fun isSet => ?_, fresh := fun wrong => nomatch wrong }
    have held := ready.held isSet
    rw [same rfl]
    exact ⟨held.buf, held.offset, held.start, held.hasDquote⟩
  | false =>
    simp only [set, false_eq_true, if_false]
    exact { sameCallback := rfl, fieldCount := ready.fieldCount, fieldParsed := ready.fieldParsed,
            phase := ready.phase, held := (fun wrong => nomatch wrong), fresh := fun _ => rfl }

theorem FieldParsed.of_scanned {scanning : CsvState} {opened : Machine} {skipped : Bytes} {buffered : Bool}
    (called : parseCsvField state data = settleField buffered data buf (scanField scanning buf))
    (scanned : Scanned callback scanning opened buf unread) (parts : data = skipped ++ unread)
    (offset : scanning.offset = state.offset + skipped.length)
    (saved : callback = true → (if buffered then scanning.bufferedData else scanning.bufferedData ++ data) = buf)
    (opens : run (step callback) machine data = run (step callback) opened unread)
    (count : opened.fieldCount = machine.fieldCount)
    (moves : ∀ word rest, unread = word ++ rest → Stops opened.mode rest → machine.mode = .initial →
      skipped ++ word ≠ []) : FieldParsed callback state machine data := by
  have same : opened.closed = machine.closed := by
    unfold closed
    rw [count]
  have shift : ∀ count, scanning.offset + count - state.offset = skipped.length + count := by
    intro count
    omega
  cases scanned with
  | goesOn after next loop inside _ position kept ready =>
    refine .goesOn { after with
        bufferedData := if buffered then scanning.bufferedData else scanning.bufferedData ++ data } next ?_
      (opens.trans inside) ?_ (related_leave ready saved)
    · rw [called, loop, ← kept]
      cases buffered <;> rfl
    · rw [position, shift, parts, ← length_append, drop_length]
  | ended after word rest loop split stop position set counted closes =>
    refine .ended after (if after.callback then [invokeFieldCallback after buf] else []) (skipped ++ word) rest
      ?_ ?_ ?_ (moves word rest split stop) set (counted.trans count) ?_
    · rw [called, loop]
      rfl
    · rw [parts, split, append_assoc]
    · rw [position, shift, parts, split, ← append_assoc, ← length_append, drop_left]
    · unfold Continues
      rw [opens, ← same]
      exact closes

theorem parseCsvField_again (related : Related callback state machine) (field : machine.mode.isField = true) :
    FieldParsed callback state machine data := by
  have started : state.phase ≠ .initial := by
    rw [related.phase]
    cases mode : machine.mode with
    | initial => rw [mode] at field; cases field
    | foundCr | simple text => intro wrong; cases wrong
    | quoted text closing => cases closing <;> (intro wrong; cases wrong)
  have later : machine.mode ≠ .initial := by
    intro initial
    rw [initial] at field
    cases field
  have set := related.sameCallback
  cases callback with
  | true =>
    have held := related.held rfl
    have bytes : state.bufferedData = machine.mode.read.1 := held.buf.trans (append_nil _)
    have ready : Ready true { state with bufferedData := state.bufferedData ++ data } machine
        (state.bufferedData ++ data) data :=
      { sameCallback := set, fieldCount := related.fieldCount, fieldParsed := related.fieldParsed,
        phase := related.phase
        ahead := by
          rw [held.offset, ← bytes, drop_left]
        held := fun _ => ⟨by rw [bytes], held.offset, held.start, held.hasDquote⟩ }
    have called : parseCsvField state data = settleField true data (state.bufferedData ++ data)
        (scanField { state with bufferedData := state.bufferedData ++ data } (state.bufferedData ++ data)) := by
      unfold parseCsvField
      rw [if_neg started, if_pos set]
    exact .of_scanned called (scanField_spec ready field) (nil_append _).symm rfl (fun _ => rfl) rfl rfl
      fun _ _ _ _ initial => absurd initial later
  | false =>
    have ready : Ready false state machine data data :=
      { sameCallback := set, fieldCount := related.fieldCount, fieldParsed := related.fieldParsed,
        phase := related.phase
        ahead := by rw [related.fresh rfl, drop_zero]
        held := (fun wrong => nomatch wrong) }
    have called : parseCsvField state data = settleField false data data (scanField state data) := by
      unfold parseCsvField
      rw [if_neg started, if_neg (by rw [set]; exact Bool.false_ne_true)]
    exact .of_scanned called (scanField_spec ready field) (nil_append _).symm rfl (fun wrong => nomatch wrong) rfl rfl
      fun _ _ _ _ initial => absurd initial later

theorem step_first {machine : Machine} (initial : machine.mode = .initial) {byte : UInt8} (plain : ends byte = false)
    (other : byte ≠ quote) : step callback machine byte = step callback (inSimple machine []) byte := by
  have apart := plain
  unfold ends at apart
  simp only [or_eq_false_iff, decide_eq_false_iff_not] at apart
  unfold step inSimple between
  simp [initial, plain, apart, other]

theorem parseCsvField_first (related : Related callback state machine) (initial : machine.mode = .initial)
    {byte : UInt8} (plain : ends byte = false) : FieldParsed callback state machine (byte :: rest) := by
  have phase : state.phase = .initial := by
    rw [related.phase, initial]
    rfl
  have offset : state.offset = 0 := by
    cases callback with
    | true =>
      have held := related.held rfl
      rw [initial] at held
      exact held.offset
    | false => exact related.fresh rfl
  have kept : callback = true → state.bufferedData = [] ∧ state.hasDquote = false := by
    intro isSet
    have held := related.held isSet
    rw [initial] at held
    exact ⟨held.buf, held.hasDquote⟩
  have called : parseCsvField state (byte :: rest) =
      settleField false (byte :: rest) (byte :: rest) (scanField (openField state (byte :: rest)) (byte :: rest)) := by
    unfold parseCsvField
    rw [if_pos phase]
  have first : (byte :: rest)[state.offset]? = some byte := by
    rw [offset]
    rfl
  by_cases quotes : byte = quote
  · subst quotes
    have opened : openField state (quote :: rest) =
        { state with offset := 1, phase := .startedDquote, start := 1 } := by
      unfold openField
      rw [if_pos first, offset]
    have ready : Ready callback { state with offset := 1, phase := .startedDquote, start := 1 }
        (inQuoted machine [] false) (quote :: rest) rest :=
      { sameCallback := related.sameCallback, fieldCount := related.fieldCount, fieldParsed := related.fieldParsed,
        phase := rfl, ahead := rfl
        held := fun isSet => ⟨rfl, rfl, rfl, (kept isSet).2⟩ }
    rw [opened] at called
    refine .of_scanned called (scanField_spec ready rfl) (singleton_append ..).symm ?_ ?_ ?_ rfl ?_
    · change 1 = state.offset + 1
      rw [offset]
    · intro isSet
      rw [(kept isSet).1]
      rfl
    · rw [run_cons]
      unfold step
      rw [initial]
      rfl
    · intro word rest' _ _ _ wrong
      cases wrong
  · have opened : openField state (byte :: rest) = { state with phase := .startedSimple, start := 0 } := by
      have other : (byte :: rest)[state.offset]? ≠ some quote := by
        rw [first]
        exact fun same => quotes (Option.some.inj same)
      unfold openField
      rw [if_neg other, offset]
    have ready : Ready callback { state with phase := .startedSimple, start := 0 } (inSimple machine [])
        (byte :: rest) (byte :: rest) :=
      { sameCallback := related.sameCallback, fieldCount := related.fieldCount, fieldParsed := related.fieldParsed,
        phase := rfl
        ahead := by
          rw [offset, drop_zero]
        held := fun isSet => ⟨rfl, offset, rfl, (kept isSet).2⟩ }
    rw [opened] at called
    refine .of_scanned called (scanField_spec ready rfl) (nil_append _).symm rfl ?_ ?_ rfl ?_
    · intro isSet
      rw [(kept isSet).1]
      rfl
    · rw [run_cons, run_cons, step_first initial plain quotes]
    · intro word rest' parts stop _ nothing
      obtain ⟨other, tail, shape, ending⟩ := stop
      rw [nil_append] at nothing
      rw [nothing, shape] at parts
      cases parts
      rw [plain] at ending
      cases ending

/-! ## The loop over the fields -/

def Mode.pending : Mode → Nat
  | .initial => 0
  | .foundCr | .simple _ | .quoted _ _ => 1

theorem read_idle {mode : Mode} (idle : mode.isField = false) : mode.read = ([], 0, false) := by
  cases mode with
  | initial => rfl
  | foundCr => rfl
  | simple text => cases idle
  | quoted text closing => cases idle

structure Idle (callback : Bool) (state : CsvState) : Prop where
  offset : state.offset = 0
  clean : callback = true → state.bufferedData = [] ∧ state.start = 0 ∧ state.hasDquote = false

theorem Related.idle (related : Related callback state machine) (idle : machine.mode.isField = false) :
    Idle callback state := by
  have read := read_idle idle
  constructor
  · cases callback with
    | true =>
      have offset := (related.held rfl).offset
      rw [read] at offset
      exact offset
    | false => exact related.fresh rfl
  · intro isSet
    obtain ⟨buf, -, start, hasDquote⟩ := related.held isSet
    rw [read] at buf start hasDquote
    exact ⟨buf, start, hasDquote⟩

theorem Idle.related (kept : Idle callback state) (follows : Follows callback state machine)
    (idle : machine.mode.isField = false) : Related callback state machine := by
  have read := read_idle idle
  refine { toFollows := follows, held := fun isSet => ?_, fresh := fun _ => kept.offset }
  obtain ⟨buf, start, hasDquote⟩ := kept.clean isSet
  constructor
  · rw [read]; exact buf
  · rw [read]; exact kept.offset
  · rw [read]; exact start
  · rw [read]; exact hasDquote

theorem idle_countField : Idle callback (countField state) := ⟨rfl, fun _ => ⟨rfl, rfl, rfl⟩⟩

theorem related_countField (sameCallback : state.callback = callback)
    (fieldCount : state.fieldCount = machine.fieldCount) : Related callback (countField state) machine.closed :=
  idle_countField.related ⟨sameCallback, congrArg (· + 1) fieldCount, rfl, rfl⟩ rfl

structure Blank (callback : Bool) (state : CsvState) (machine : Machine) : Prop where
  fields : (emptyField state).1.map Event.field = (machine.blank callback).1
  sameCallback : (emptyField state).2.callback = callback
  fieldCount : (emptyField state).2.fieldCount = (machine.blank callback).2.fieldCount
  phase : (emptyField state).2.phase = state.phase
  mode : (machine.blank callback).2.mode = machine.mode
  idle : Idle callback (emptyField state).2

section

variable (follows : Follows callback state machine) (idle : Idle callback state)
include follows idle

theorem emptyField_spec : Blank callback state machine := by
  by_cases parsed : state.fieldParsed = true
  · have same : machine.fieldParsed = true := follows.fieldParsed ▸ parsed
    have left : emptyField state = ([], state) := if_pos parsed
    have right : machine.blank callback = ([], machine) := if_pos same
    constructor
    · rw [left, right]; rfl
    · rw [left]; exact follows.sameCallback
    · rw [left, right]; exact follows.fieldCount
    · rw [left]
    · rw [right]
    · rw [left]; exact idle
  · have same : ¬ machine.fieldParsed = true := follows.fieldParsed ▸ parsed
    have left : emptyField state =
        (if state.callback then [[]] else [], { state with fieldCount := state.fieldCount + 1 }) := if_neg parsed
    have right : machine.blank callback =
        (told callback [], { machine with fieldCount := machine.fieldCount + 1 }) := if_neg same
    constructor
    · rw [left, right, follows.sameCallback]
      cases callback <;> rfl
    · rw [left]; exact follows.sameCallback
    · rw [left, right]; exact congrArg (· + 1) follows.fieldCount
    · rw [left]
    · rw [right]
    · rw [left]; exact ⟨idle.offset, idle.clean⟩

theorem endRecord_spec (initial : state.phase = .initial) (rest : Bytes) :
    (endRecord state rest).events = (machine.finish callback).1 ∧ Related callback (endRecord state rest).state start := by
  have blank := emptyField_spec follows idle
  constructor
  · change (emptyField state).1.map Event.field ++ [.record (emptyField state).2.fieldCount] = _
    rw [blank.fields, blank.fieldCount]
    rfl
  · have clean : Idle callback (endRecord state rest).state := ⟨blank.idle.offset, blank.idle.clean⟩
    exact clean.related ⟨blank.sameCallback, rfl, rfl, blank.phase.trans initial⟩ rfl

end

def crPending (mode : Mode) : Nat := if mode = .foundCr then 1 else 0

theorem crPending_le (mode : Mode) : crPending mode ≤ 1 := by
  unfold crPending
  split
  · exact Nat.le_refl 1
  · exact Nat.zero_le 1

structure Moves (machine : Machine) (buf : Bytes) (next : Machine) (rest : Bytes) : Prop where
  length : rest.length ≤ buf.length
  less : buf ≠ [] → 2 * rest.length + crPending next.mode < 2 * buf.length + crPending machine.mode

theorem Moves.of_length (shorter : rest.length < buf.length) : Moves machine buf next rest := by
  have bound := crPending_le next.mode
  exact ⟨Nat.le_of_lt shorter, fun _ => by omega⟩

theorem Moves.before {ahead : Bytes} (moves : Moves middle ahead next rest)
    (round : ahead.length < buf.length ∨ ahead = buf ∧ crPending middle.mode ≤ crPending machine.mode) :
    Moves machine buf next rest := by
  obtain shorter | ⟨rfl, less⟩ := round
  · exact .of_length (Nat.lt_of_le_of_lt moves.length shorter)
  · exact ⟨moves.length, fun some_ahead =>
      Nat.lt_of_lt_of_le (moves.less some_ahead) (Nat.add_le_add_left less _)⟩

/-- What a call of `flb_csv_parse_record` comes to. -/
def Works (callback : Bool) (result : Option Parsed) (machine : Machine) (buf : Bytes) : Prop :=
  ∃ parsed next, result = some parsed ∧ Related callback parsed.state next ∧
    Continues (step callback) machine buf parsed.events next parsed.rest ∧ Moves machine buf next parsed.rest

theorem events_after (fields : List Bytes) (parsed : Parsed) :
    (parsed.after fields).events = fields.map .field ++ parsed.events := by
  unfold Parsed.after Parsed.events
  rw [map_append, append_assoc]

theorem Works.after {fields : List Bytes} (works : Works callback result middle rest)
    (round : Continues (step callback) machine buf (fields.map .field) middle rest)
    (read : rest.length < buf.length ∨ rest = buf ∧ crPending middle.mode ≤ crPending machine.mode) :
    Works callback (result.map (·.after fields)) machine buf := by
  obtain ⟨parsed, next, rfl, related, continues, moves⟩ := works
  refine ⟨parsed.after fields, next, rfl, related, ?_, moves.before read⟩
  rw [events_after]
  exact round.trans continues

theorem Works.of_endRecord {ending : Machine} (follows : Follows callback state ending) (idle : Idle callback state)
    (initial : state.phase = .initial)
    (round : Continues (step callback) machine buf (ending.finish callback).1 start rest)
    (moves : Moves machine buf start rest) : Works callback (some (endRecord state rest)) machine buf := by
  obtain ⟨events, related⟩ := endRecord_spec follows idle initial rest
  refine ⟨endRecord state rest, start, rfl, related, ?_, moves⟩
  rw [events]
  exact round

theorem Works.skip (works : Works callback result middle rest)
    (round : Continues (step callback) machine buf [] middle rest) (read : rest.length < buf.length) :
    Works callback result machine buf := by
  obtain ⟨parsed, next, found, related, continues, moves⟩ := works
  exact ⟨parsed, next, found, related, round.trans continues, moves.before (.inl read)⟩

theorem Works.of_field {loop : CsvState → Bytes → Option Parsed}
    (field : FieldParsed callback state machine data) (some_data : data ≠ [])
    (later : ∀ after word rest, data = word ++ rest → (machine.mode = .initial → word ≠ []) →
      Related callback after machine.closed → Works callback (loop after rest) machine.closed rest) :
    Works callback (match parseCsvField state data with
        | (.success, after, fields) =>
          (loop (countField after) (data.drop (after.offset - state.offset))).map (·.after fields)
        | (.eof, after, _) => some ⟨.eof, [], data.drop (after.offset - state.offset), leave after⟩
        | (.invalidState, after, _) => some ⟨.invalidState, [], data.drop (after.offset - state.offset), leave after⟩)
      machine data := by
  cases field with
  | goesOn after next result inside nothing related =>
    rw [result]
    simp only
    rw [nothing]
    refine ⟨_, next, rfl, related, ?_, .of_length (length_pos_of_ne_nil some_data)⟩
    unfold Continues
    rw [inside]
    rfl
  | ended after fields word rest result parts behind moves set count closes =>
    rw [result]
    simp only
    rw [behind]
    refine (later _ word rest parts moves (related_countField set count)).after closes ?_
    cases word with
    | nil => exact .inr ⟨parts.symm, Nat.zero_le _⟩
    | cons byte word =>
      left
      rw [parts, length_append, length_cons]
      omega

theorem finish_mode (mode : Mode) :
    ({ machine with mode } : Machine).finish callback = machine.finish callback := by
  unfold finish blank
  cases machine.fieldParsed <;> rfl

section Loop

variable {fuel : Nat} {state : CsvState} {machine : Machine} {byte : UInt8} {rest : Bytes}

def WorksBelow (callback : Bool) (fuel : Nat) : Prop :=
  ∀ state machine buf, Related callback state machine → 2 * buf.length + machine.mode.pending < fuel →
    Works callback (parseRecordLoop fuel state buf) machine buf

theorem WorksBelow.behind (below : WorksBelow callback fuel)
    (enough : 2 * (rest.length + 1) + machine.mode.pending < fuel + 1) (after : CsvState)
    (word ahead : Bytes) (parts : byte :: rest = word ++ ahead) (moves : machine.mode = .initial → word ≠ [])
    (next : Related callback after machine.closed) :
    Works callback (parseRecordLoop fuel after ahead) machine.closed ahead := by
  refine below after machine.closed ahead next ?_
  have size := congrArg List.length parts
  rw [length_cons, length_append] at size
  change 2 * ahead.length + 0 < fuel
  cases mode : machine.mode with
  | initial =>
    have some_read := length_pos_of_ne_nil (moves mode)
    omega
  | foundCr | simple text | quoted text closing => rw [mode] at enough; change _ + 1 < _ at enough; omega

theorem works_initial (below : WorksBelow callback fuel) (related : Related callback state machine)
    (mode : machine.mode = .initial) (enough : 2 * (rest.length + 1) + machine.mode.pending < fuel + 1) :
    Works callback (parseRecordLoop (fuel + 1) state (byte :: rest)) machine (byte :: rest) := by
  have initial : state.phase = .initial := by
    rw [related.phase, mode]
    rfl
  have idle := related.idle (by rw [mode]; rfl)
  have stepped : step callback machine byte = machine.between callback byte := by
    unfold step
    rw [mode]
  have one := one_byte callback machine byte rest
  rw [stepped] at one
  have short : 2 * rest.length + 1 < fuel := by
    omega
  unfold parseRecordLoop
  by_cases isReturn : byte = carriageReturn
  · subst isReturn
    have clean : Idle callback { state with phase := .foundCr } := ⟨idle.offset, idle.clean⟩
    have next : Related callback { state with phase := .foundCr } { machine with mode := .foundCr } :=
      clean.related ⟨related.sameCallback, related.fieldCount, related.fieldParsed, rfl⟩ rfl
    rw [if_pos ⟨initial, rfl⟩]
    exact (below _ _ rest next short).skip one (lt_succ_self _)
  rw [if_neg fun both => isReturn both.2]
  by_cases isFeed : byte = lineFeed
  · subst isFeed
    rw [if_pos ⟨initial, rfl⟩]
    exact .of_endRecord related.toFollows idle initial one (.of_length (lt_succ_self _))
  rw [if_neg fun both => isFeed both.2]
  by_cases isComma : byte = comma
  · subst isComma
    have blank := emptyField_spec related.toFollows idle
    have clean : Idle callback { (emptyField state).2 with fieldParsed := false } := ⟨blank.idle.offset, blank.idle.clean⟩
    have next : Related callback { (emptyField state).2 with fieldParsed := false }
        { (machine.blank callback).2 with fieldParsed := false } := by
      refine clean.related ⟨blank.sameCallback, blank.fieldCount, rfl, ?_⟩ ?_
      · rw [blank.mode, mode]
        exact blank.phase.trans initial
      · rw [blank.mode, mode]
        rfl
    have bound : 2 * rest.length + (machine.blank callback).2.mode.pending < fuel := by
      rw [blank.mode, mode]
      exact lt_of_succ_lt short
    have round : Continues (step callback) machine (comma :: rest) ((emptyField state).1.map .field)
        { (machine.blank callback).2 with fieldParsed := false } rest := by
      rw [blank.fields]
      exact one
    rw [if_pos ⟨initial, rfl⟩]
    exact (below _ _ rest next bound).after round (.inl (lt_succ_self _))
  rw [if_neg fun both => isComma both.2, if_neg (by rw [initial]; exact fun wrong => nomatch wrong)]
  have plain : ends byte = false := by
    unfold ends
    rw [decide_eq_false isComma, decide_eq_false isFeed, decide_eq_false isReturn]
    rfl
  exact .of_field (parseCsvField_first related mode plain) (cons_ne_nil _ _) (below.behind enough)

theorem works_foundCr (related : Related callback state machine) (mode : machine.mode = .foundCr) :
    Works callback (parseRecordLoop (fuel + 1) state (byte :: rest)) machine (byte :: rest) := by
  have phase : state.phase = .foundCr := by
    rw [related.phase, mode]
    rfl
  have idle := related.idle (by rw [mode]; rfl)
  have other : ∀ (condition : Prop), ¬ (state.phase = .initial ∧ condition) := by
    intro condition both
    rw [phase] at both
    cases both.1
  unfold parseRecordLoop
  rw [if_neg (other _), if_neg (other _), if_neg (other _), if_pos phase]
  have follows : Follows callback { state with phase := .initial } { machine with mode := .initial } :=
    ⟨related.sameCallback, related.fieldCount, related.fieldParsed, rfl⟩
  have clean : Idle callback { state with phase := .initial } := ⟨idle.offset, idle.clean⟩
  refine .of_endRecord follows clean rfl ?_ ?_
  swap
  · by_cases isFeed : byte = lineFeed
    · rw [if_pos isFeed]
      exact .of_length (lt_succ_self _)
    · rw [if_neg isFeed]
      refine ⟨Nat.le_refl _, fun _ => ?_⟩
      rw [mode]
      exact lt_succ_self _
  rw [finish_mode]
  have stepped : step callback machine byte = if byte = lineFeed then machine.finish callback
      else ((machine.finish callback).1 ++ (start.between callback byte).1, (start.between callback byte).2) := by
    unfold step
    rw [mode]
  unfold Continues
  rw [run_cons, stepped]
  by_cases isFeed : byte = lineFeed
  · rw [if_pos isFeed, if_pos isFeed]
    rfl
  · rw [if_neg isFeed, if_neg isFeed, run_cons, append_assoc]
    rfl

theorem works_field (below : WorksBelow callback fuel) (related : Related callback state machine)
    (field : machine.mode.isField = true) (enough : 2 * (rest.length + 1) + machine.mode.pending < fuel + 1) :
    Works callback (parseRecordLoop (fuel + 1) state (byte :: rest)) machine (byte :: rest) := by
  have phase : state.phase ≠ .initial ∧ state.phase ≠ .foundCr := by
    rw [related.phase]
    cases mode : machine.mode with
    | initial | foundCr => rw [mode] at field; cases field
    | simple text => exact ⟨(fun wrong => nomatch wrong), (fun wrong => nomatch wrong)⟩
    | quoted text closing => cases closing <;> exact ⟨(fun wrong => nomatch wrong), (fun wrong => nomatch wrong)⟩
  unfold parseRecordLoop
  rw [if_neg fun both => phase.1 both.1, if_neg fun both => phase.1 both.1, if_neg fun both => phase.1 both.1,
    if_neg phase.2]
  exact .of_field (parseCsvField_again related field) (cons_ne_nil _ _) (below.behind enough)

theorem parseRecordLoop_works : WorksBelow callback fuel := by
  induction fuel with
  | zero => exact fun _ _ _ _ enough => absurd enough (Nat.not_lt_zero _)
  | succ fuel ih =>
    intro state machine buf related enough
    cases buf with
    | nil => exact ⟨_, machine, rfl, related, .refl machine [], Nat.le_refl _, fun some_left => absurd rfl some_left⟩
    | cons byte rest =>
      cases mode : machine.mode with
      | initial => exact works_initial ih related mode enough
      | foundCr => exact works_foundCr related mode
      | simple text | quoted text closing => exact works_field ih related (by rw [mode]; rfl) enough

end Loop

theorem pending_le (mode : Mode) : mode.pending ≤ 1 := by
  cases mode with
  | initial => exact Nat.zero_le 1
  | foundCr | simple text | quoted text closing => exact Nat.le_refl 1

variable {machine : Machine} {state : CsvState}

theorem parseRecord_works (related : Related callback state machine) (buf : Bytes) :
    Works callback (parseRecord state buf) machine buf := by
  have bound := pending_le machine.mode
  exact parseRecordLoop_works state machine buf related (by omega)

def call (state : CsvState) (buf : Bytes) : Option (Called UInt8 Event CsvState) :=
  (parseRecord state buf).map fun parsed => ⟨parsed.events, parsed.rest, parsed.state⟩

theorem call_works (related : Related callback state machine) (buf : Bytes) :
    ∃ called next, call state buf = some called ∧ Related callback called.impl next ∧
      Continues (step callback) machine buf called.outputs next called.rest ∧ Moves machine buf next called.rest := by
  obtain ⟨parsed, next, found, after, continues, moves⟩ := parseRecord_works related buf
  refine ⟨⟨parsed.events, parsed.rest, parsed.state⟩, next, ?_, after, continues, moves⟩
  unfold call
  rw [found]
  rfl

theorem call_simulates (callback : Bool) : Simulates (step callback) (Related callback) call := by
  intro state machine buf related
  obtain ⟨called, next, found, after, continues, -⟩ := call_works related buf
  exact ⟨called, next, found, after, continues⟩

theorem pending_eq (related : Related callback state machine) :
    (if state.phase = .foundCr then 1 else 0) = crPending machine.mode := by
  rw [related.phase]
  cases machine.mode with
  | initial => rfl
  | foundCr => rfl
  | simple text => rfl
  | quoted text closing => cases closing <;> rfl

theorem call_proceeds : Proceeds (Related callback) call fun state => if state.phase = .foundCr then 1 else 0 := by
  constructor
  · intro state machine called related found
    obtain ⟨other, next, same, -, -, moves⟩ := call_works related []
    rw [found] at same
    cases same
    exact eq_nil_of_length_eq_zero (le_zero.mp moves.length)
  · intro state machine text called related some_text found
    obtain ⟨other, next, same, after, -, moves⟩ := call_works related text
    rw [found] at same
    cases same
    rw [pending_eq related, pending_eq after]
    exact moves.less some_text

/-- A text is read as the same fields and records wherever it is cut. -/
theorem calls_cut (callback : Bool) (text : Bytes) : ∃ events, ∀ sizes, ∃ called,
    calls call (init callback) text sizes = some called ∧ called.outputs <+: events ∧
      (called.rest = [] → called.outputs = events) ∧
      ((∀ size ∈ sizes, 0 < size) → 2 * text.length ≤ sizes.length → called.rest = []) := by
  have simulates := call_simulates callback
  refine ⟨(run (step callback) start text).1, fun sizes => ?_⟩
  obtain ⟨called, next, done, -, continues⟩ := simulates.calls (related_init callback) text sizes
  have outputs := congrArg Prod.fst continues
  refine ⟨called, done, ⟨_, outputs.symm⟩, fun nothing => ?_, fun positive enough => ?_⟩
  · rw [outputs, nothing]
    exact (append_nil _).symm
  · exact simulates.calls_all call_proceeds (related_init callback) text positive (.inr enough) done

end FluentBit.Csv
