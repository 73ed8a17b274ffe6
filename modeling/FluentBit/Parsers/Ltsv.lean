import FluentBit.Parsers.KeyValue

/-! Labelled values behind tabs, after `src/flb_parser_ltsv.c`. -/

set_option autoImplicit false

namespace FluentBit.KeyValue

open List Option
open Msgpack (Object)

/-- The table `ltvs_label` -/
def ltvsLabel (byte : UInt8) : Bool :=
  byte == 0x2d || byte == 0x2e || Ascii.isDigit byte || (0x41 ≤ byte && byte ≤ 0x5a) || byte == 0x5f ||
    (0x61 ≤ byte && byte ≤ 0x7a)

/-- The table `ltvs_field` -/
def ltvsField (byte : UInt8) : Bool :=
  byte != 0x00 && byte != 0x09 && byte != 0x0a && byte != 0x0d && byte != 0x0e

/-- A turn of `ltsv_parser` -/
def ltsvTurn (c : Bytes) : Option Turn :=
  let label := c.takeWhile ltvsLabel
  let c := c.dropWhile ltvsLabel
  if c = [] then some (.stop [])
  else do
    let byte ← c.head?
    if byte ≠ Ascii.colon then pure (.stop c)
    else
      let field := c.tail.takeWhile ltvsField
      let c := c.tail.dropWhile ltvsField
      let pair := if label = [] then none else some { key := label, value := field }
      if c = [] then pure (.next pair false [])
      else
        let byte ← c.head?
        let (more, c) ← lineEnd (if byte = Ascii.tab then c.tail else c)
        pure (.next pair more c)

def packLtsv (numbers : Numbers) (types : List ParserType) (pair : Pair) : Object × Object :=
  if types.length ≠ 0 then flbParserTypecast numbers types pair.key pair.value else (.str pair.key, .str pair.value)

def flbParserLtsvDo {Time : Type} (parser : Parser Time) (numbers : Numbers) (types : List ParserType)
    (inBuf : Bytes) : Option (Option (Record (Object × Object) Time)) :=
  parserDo parser ltsvTurn (packLtsv numbers types) inBuf

/-! ### The grammar -/

def lbyte (byte : UInt8) : Bool :=
  Ascii.isDigit byte || (0x41 ≤ byte && byte ≤ 0x5a) || (0x61 ≤ byte && byte ≤ 0x7a) ||
    byte == Ascii.letter '_' || byte == Ascii.dot || byte == Ascii.minus

def fbyte (byte : UInt8) : Bool := (0x01 ≤ byte && byte ≤ 0x08) || byte == 0x0b || byte == 0x0c || 0x0e ≤ byte

structure Field where
  label : Bytes
  value : Bytes
  label_ne : label ≠ []
  lbytes : label.all lbyte = true
  fbytes : value.all fbyte = true

namespace Field

def pair (field : Field) : Pair where
  key := field.label
  value := field.value

def record : List Field → Bytes
  | [] => []
  | [field] => field.label ++ Ascii.colon :: field.value
  | field :: other :: fields => field.label ++ Ascii.colon :: (field.value ++ Ascii.tab :: record (other :: fields))

end Field

structure Line where
  fields : List Field
  ending : Bytes
  rest : Bytes
  isEnding : ending = [] ∧ rest = [] ∨ ending = [Ascii.newline] ∨ ending = [Ascii.carriageReturn, Ascii.newline]

namespace Line

def text (line : Line) : Bytes := Field.record line.fields ++ (line.ending ++ line.rest)

def size (line : Line) : Nat := (Field.record line.fields ++ line.ending).length

def Right {Time : Type} (parser : Parser Time) (numbers : Numbers) (types : List ParserType) (line : Line) : Prop :=
  if line.fields = [] then flbParserLtsvDo parser numbers types line.text = some none
  else
    ∃ time, flbParserLtsvDo parser numbers types line.text =
      some (some { mapSize := line.fields.length
                   packed := line.fields.map fun field => (.str field.label, .str field.value)
                   time
                   lastByte := line.size })

/-- No value has the byte `0x0e`, no field is taken for the time unless it is kept, and none is cast; and
the size is an `int`. -/
def Plain {Time : Type} (parser : Parser Time) (numbers : Numbers) (types : List ParserType) (line : Line) : Prop :=
  (∀ field ∈ line.fields, 0x0e ∉ field.value ∧ parser.passes field.pair = true ∧ parser.keeps field.pair = true ∧
    packLtsv numbers types field.pair = (.str field.label, .str field.value)) ∧
  (line.fields ≠ [] → line.size < 2 ^ 31)

end Line

/-! ### Turns over a record -/

def behindField (pair : Option Pair) (after : Bytes) : Option Turn :=
  (lineEnd (if after.head? = some Ascii.tab then after.tail else after)).map fun (more, c) => .next pair more c

theorem ltsvTurn_field {label value after : Bytes} (lbytes : ∀ byte ∈ label, ltvsLabel byte = true)
    (accepted : ∀ byte ∈ value, ltvsField byte = true) (stops : after.head?.any ltvsField = false) :
    ltsvTurn (label ++ Ascii.colon :: (value ++ after)) =
      behindField (if label = [] then none else some { key := label, value }) after := by
  have labelCut : Cut ltvsLabel (label ++ Ascii.colon :: (value ++ after)) label (Ascii.colon :: (value ++ after)) :=
    ⟨rfl, lbytes, rfl⟩
  have valueCut : Cut ltvsField (value ++ after) value after := ⟨rfl, accepted, stops⟩
  simp only [ltsvTurn, behindField, labelCut.eq, cons_ne_nil, if_false, List.head?_cons, bind_eq_bind,
    bind_some, ne_eq, not_true_eq_false, tail_cons, valueCut.eq]
  cases after with
  | nil => rfl
  | cons byte after =>
    simp only [cons_ne_nil, if_false, List.head?_cons, bind_some, Option.some.injEq]
    cases lineEnd (if byte = Ascii.tab then (byte :: after).tail else byte :: after) with
    | none => rfl
    | some ending => rfl

theorem ltsvTurn_stop {label rest : Bytes} (lbytes : ∀ byte ∈ label, ltvsLabel byte = true)
    (stops : rest.head?.any ltvsLabel = false) (noColon : rest.head? ≠ some Ascii.colon) :
    ltsvTurn (label ++ rest) = some (.stop rest) := by
  have labelCut : Cut ltvsLabel (label ++ rest) label rest := ⟨rfl, lbytes, stops⟩
  unfold ltsvTurn
  rw [labelCut.eq.2]
  cases rest with
  | nil => rfl
  | cons byte rest =>
    have other : byte ≠ Ascii.colon := fun same => noColon (congrArg some same)
    simp [other]

theorem steady_ltsvTurn : Steady ltsvTurn := by
  intro c _
  have label := exists_cut ltvsLabel c
  rw [label.parts]
  generalize c.dropWhile ltvsLabel = rest at label
  by_cases noColon : rest.head? = some Ascii.colon
  · obtain ⟨c', rfl⟩ : ∃ c', rest = Ascii.colon :: c' := ⟨_, eq_cons_of_mem_head? noColon⟩
    have value := exists_cut ltvsField c'
    rw [value.parts, ltsvTurn_field label.accepted value.accepted value.stops, behindField]
    generalize c'.dropWhile ltvsField = after
    obtain ⟨more, left, ends, fewer⟩ := lineEnd_total (if after.head? = some Ascii.tab then after.tail else after)
    have bound : (if after.head? = some Ascii.tab then after.tail else after).length ≤ after.length := by
      split <;> simp
    rw [ends]
    refine ⟨_, rfl, ?_⟩
    rintro _ _ _ ⟨⟩
    simp only [length_append, length_cons]
    omega
  · rw [ltsvTurn_stop label.accepted label.stops noColon]
    refine ⟨_, rfl, ?_⟩
    intro pair more left impossible
    cases impossible

theorem fbyte_table {byte : UInt8} (isFbyte : fbyte byte = true) : ltvsField byte = (byte != 0x0e) := by
  have table : ∀ byte : UInt8, fbyte byte = true → ltvsField byte = (byte != 0x0e) := by
    apply Ascii.forall_byte
    decide +kernel
  exact table byte isFbyte

theorem lbyte_table : ∀ byte : UInt8, lbyte byte = true → ltvsLabel byte = true := by
  apply Ascii.forall_byte
  decide +kernel

theorem Field.accepted (field : Field) : ∀ byte ∈ field.label, ltvsLabel byte = true := fun byte member =>
  lbyte_table byte (all_eq_true.mp field.lbytes byte member)

theorem lbyte_solid {byte : UInt8} (isLbyte : ltvsLabel byte = true) :
    byte ≠ Ascii.carriageReturn ∧ byte ≠ Ascii.newline := by
  constructor
  · rintro rfl
    cases isLbyte
  · rintro rfl
    cases isLbyte

variable {fields : List Field} {field : Field} {ending rest after : Bytes}

theorem Field.turn (accepted : ∀ byte ∈ field.value, ltvsField byte = true) (stops : after.head?.any ltvsField = false) :
    ltsvTurn (field.label ++ Ascii.colon :: (field.value ++ after)) = behindField (some field.pair) after := by
  rw [ltsvTurn_field field.accepted accepted stops, if_neg field.label_ne]
  rfl

theorem accepted_of (spared : 0x0e ∉ field.value) : ∀ byte ∈ field.value, ltvsField byte = true := by
  intro byte member
  rw [fbyte_table (all_eq_true.mp field.fbytes byte member), bne_iff_ne]
  rintro rfl
  exact spared member

theorem behindField_ending (isEnding : ending = [] ∧ rest = [] ∨ ending = [Ascii.newline] ∨
      ending = [Ascii.carriageReturn, Ascii.newline]) (pair : Option Pair) :
    behindField pair (ending ++ rest) = some (.next pair false rest) ∧ (ending ++ rest).head?.any ltvsField = false := by
  obtain ⟨rfl, rfl⟩ | rfl | rfl := isEnding
  · exact ⟨rfl, rfl⟩
  · exact ⟨rfl, rfl⟩
  · exact ⟨rfl, rfl⟩

theorem record_cons (field : Field) (fields : List Field) :
    ∃ byte more, Field.record (field :: fields) = byte :: more ∧ ltvsLabel byte = true := by
  obtain ⟨byte, label, parts⟩ := exists_cons_of_ne_nil field.label_ne
  have lbyte := field.accepted byte (parts ▸ mem_cons_self ..)
  cases fields with
  | nil | cons other fields => exact ⟨byte, _, by rw [Field.record, parts]; rfl, lbyte⟩

theorem behindField_tab (pair : Option Pair) :
    behindField pair (Ascii.tab :: (Field.record (field :: fields) ++ after)) =
      some (.next pair true (Field.record (field :: fields) ++ after)) := by
  obtain ⟨byte, more, parts, lbyte⟩ := record_cons field fields
  rw [parts]
  simp only [behindField, List.head?_cons, if_true, tail_cons, cons_append, lineEnd_goes _ (lbyte_solid lbyte)]
  rfl

theorem turn_tab (accepted : ∀ byte ∈ field.value, ltvsField byte = true) (other : Field) :
    ltsvTurn (Field.record (field :: other :: fields) ++ after) =
      some (.next (some field.pair) true (Field.record (other :: fields) ++ after)) := by
  rw [Field.record, append_assoc, cons_append, append_assoc, cons_append, Field.turn accepted rfl, behindField_tab]

theorem record_shorter (field other : Field) :
    (Field.record (other :: fields) ++ after).length < (Field.record (field :: other :: fields) ++ after).length := by
  simp [Field.record]
  omega

theorem record_nonempty (field : Field) (fields : List Field) (after : Bytes) :
    Field.record (field :: fields) ++ after ≠ [] := by
  obtain ⟨byte, more, parts, _⟩ := record_cons field fields
  simp [parts]

theorem dropWhile_spoiled (spoiled : 0x0e ∈ field.value) : ∃ post, field.value.dropWhile ltvsField = 0x0e :: post := by
  have value := exists_cut ltvsField field.value
  cases behind : field.value.dropWhile ltvsField with
  | nil =>
    have every : ∀ byte ∈ field.value, ltvsField byte = true := by
      rw [value.parts, behind, append_nil]
      exact value.accepted
    exact absurd (every _ spoiled) (by decide)
  | cons byte post =>
    have refused := value.stops
    have member : byte ∈ field.value := by
      rw [value.parts, behind]
      exact mem_append_right _ (mem_cons_self ..)
    rw [behind, List.head?_cons, any_some, fbyte_table (all_eq_true.mp field.fbytes byte member), bne_eq_false_iff_eq] at refused
    exact ⟨post, by rw [refused]⟩

theorem walk_record (isEnding : ending = [] ∧ rest = [] ∨ ending = [Ascii.newline] ∨
      ending = [Ascii.carriageReturn, Ascii.newline]) (spared : ∀ field ∈ fields, 0x0e ∉ field.value) (nonempty : fields ≠ []) :
    Walk ltsvTurn (Field.record fields ++ (ending ++ rest)) (fields.map Field.pair) rest := by
  induction fields with
  | nil => exact absurd rfl nonempty
  | cons field fields ih =>
    have accepted := accepted_of (spared field (mem_cons_self ..))
    have solid := record_nonempty field fields (ending ++ rest)
    cases fields with
    | nil =>
      obtain ⟨ends, stops⟩ := behindField_ending isEnding (some field.pair)
      have step : ltsvTurn (Field.record [field] ++ (ending ++ rest)) = some (.next (some field.pair) false rest) := by
        rw [Field.record, append_assoc, cons_append, Field.turn accepted stops, ends]
      exact .last solid step
    | cons other fields =>
      have walk := ih (fun field member => spared field (mem_cons_of_mem _ member)) (cons_ne_nil _ _)
      exact .more solid (turn_tab accepted other) (record_shorter field other) walk

theorem walk_stops (spoiled : ∃ field ∈ fields, 0x0e ∈ field.value) :
    ∃ pairs left, Walk ltsvTurn (Field.record fields ++ (ending ++ rest)) pairs left ∧ rest.length < left.length := by
  induction fields with
  | nil =>
    obtain ⟨_, member, _⟩ := spoiled
    cases member
  | cons field fields ih =>
    have solid := record_nonempty field fields (ending ++ rest)
    have tail : ∃ after, Field.record (field :: fields) ++ (ending ++ rest) =
        field.label ++ Ascii.colon :: (field.value ++ after) ∧ rest.length ≤ after.length := by
      cases fields with
      | nil => exact ⟨ending ++ rest, by simp [Field.record], by simp⟩
      | cons other fields =>
        refine ⟨Ascii.tab :: (Field.record (other :: fields) ++ (ending ++ rest)), by simp [Field.record], ?_⟩
        simp
        omega
    by_cases here : 0x0e ∈ field.value
    · obtain ⟨after, text, longer⟩ := tail
      have value := exists_cut ltvsField field.value
      obtain ⟨post, stuck⟩ := dropWhile_spoiled here
      have step : ltsvTurn (Field.record (field :: fields) ++ (ending ++ rest)) = some (.next
          (some { key := field.label, value := field.value.takeWhile ltvsField }) true (0x0e :: (post ++ after))) := by
        have parts : field.value ++ after = field.value.takeWhile ltvsField ++ (0x0e :: (post ++ after)) := by
          rw [← cons_append, ← stuck, ← append_assoc, ← value.parts]
        rw [text, parts, ltsvTurn_field field.accepted value.accepted rfl, if_neg field.label_ne]
        rfl
      have stop : ltsvTurn (0x0e :: (post ++ after)) = some (.stop (0x0e :: (post ++ after))) := by
        refine ltsvTurn_stop (forall_mem_nil _) rfl ?_
        rw [List.head?_cons]
        decide
      refine ⟨_, _, .more solid step ?_ (.stop (cons_ne_nil _ _) stop), ?_⟩
      · rw [text, value.parts, stuck]
        simp
        omega
      · simp
        omega
    · have accepted := accepted_of here
      cases fields with
      | nil => simp [here] at spoiled
      | cons other fields =>
        have later : ∃ field ∈ other :: fields, 0x0e ∈ field.value := by
          obtain ⟨bad, member, inside⟩ := spoiled
          cases member with
          | head => exact absurd inside here
          | tail _ member => exact ⟨bad, member, inside⟩
        obtain ⟨pairs, left, walk, longer⟩ := ih later
        exact ⟨_, left, .more solid (turn_tab accepted other) (record_shorter field other) walk,
          longer⟩

def Safe {Time : Type} (parser : Parser Time) (numbers : Numbers) (types : List ParserType) (text : Bytes) : Prop :=
  ∃ outcome, flbParserLtsvDo parser numbers types text = some outcome ∧
    ∀ record, outcome = some record → record.mapSize = record.packed.length

theorem safe {Time : Type} (parser : Parser Time) (numbers : Numbers) (types : List ParserType) (text : Bytes) :
    Safe parser numbers types text := by
  obtain ⟨pairs, left, walk⟩ := steady_ltsvTurn.walks text
  refine ⟨_, parserDo_walk walk, ?_⟩
  intro record found
  split at found
  · cases found
    exact (length_map ..).symm
  · cases found

theorem toInt_le (n : Nat) : (BitVec.ofNat 32 n).toInt ≤ n := by
  rw [BitVec.toInt_eq_toNat_bmod, BitVec.toNat_ofNat, Int.bmod]
  split <;> omega

theorem toInt_eq_iff (n : Nat) : (BitVec.ofNat 32 n).toInt = n ↔ n < 2 ^ 31 := by
  rw [BitVec.toInt_eq_toNat_bmod, BitVec.toNat_ofNat, Int.bmod]
  split <;> omega

/-- A line of the grammar comes out as it is, and every text is read safely, if and only if the line
is plain. -/
theorem ltsv_right_iff {Time : Type} (parser : Parser Time) (numbers : Numbers) (types : List ParserType) (line : Line) :
    (line.Right parser numbers types ∧ ∀ text, Safe parser numbers types text) ↔ line.Plain parser numbers types := by
  rw [and_iff_left (safe parser numbers types)]
  have size : line.text.length = line.size + line.rest.length := by
    simp [Line.text, Line.size, Nat.add_assoc]
  unfold Line.Right Line.Plain flbParserLtsvDo
  by_cases none : line.fields = []
  · have walk : ∃ left, Walk ltsvTurn line.text [] left := by
      rw [Line.text, none]
      obtain ⟨ending, rest⟩ | ending | ending := line.isEnding
      · rw [ending, rest]
        exact ⟨_, .ended⟩
      · rw [ending]
        exact ⟨_, .stop (cons_ne_nil _ _) rfl⟩
      · rw [ending]
        exact ⟨_, .stop (cons_ne_nil _ _) rfl⟩
    obtain ⟨left, walk⟩ := walk
    rw [if_pos none, parserDo_walk walk]
    simp [none]
  rw [if_neg none]
  by_cases spoiled : ∃ field ∈ line.fields, 0x0e ∈ field.value
  · obtain ⟨pairs, left, walk, longer⟩ := @walk_stops line.fields line.ending line.rest spoiled
    rw [← Line.text] at walk
    constructor
    · rintro ⟨time, result⟩
      rw [parserDo_walk walk] at result
      split at result
      · simp only [Option.some.injEq, Record.mk.injEq] at result
        have wrapped := toInt_le (line.text.length - left.length)
        have := result.2.2.2
        have positive : 0 < line.size := by
          obtain ⟨field, fields, parts⟩ := exists_cons_of_ne_nil none
          rw [Line.size, parts]
          exact length_pos_of_ne_nil (record_nonempty field fields line.ending)
        omega
      · cases result
    · rintro ⟨each, _⟩
      obtain ⟨field, member, inside⟩ := spoiled
      exact absurd inside (each field member).1
  · have spared : ∀ field ∈ line.fields, 0x0e ∉ field.value := fun field member inside => spoiled ⟨field, member, inside⟩
    have walk := walk_record line.isEnding spared none
    rw [← Line.text] at walk
    have consumed : line.text.length - line.rest.length = line.size := by omega
    rw [parserDo_exact none walk, consumed, toInt_eq_iff]
    constructor
    · rintro ⟨each, _, small⟩
      exact ⟨fun field member => ⟨spared field member, each field member⟩, fun _ => small⟩
    · rintro ⟨each, small⟩
      exact ⟨fun field member => (each field member).2, Int.natCast_nonneg _, small none⟩

/-- `a:b<0x0e>c` with a line feed. -/
def shiftOut : Line where
  fields := [{ label := [0x61], value := [0x62, 0x0e, 0x63], label_ne := by decide, lbytes := by decide, fbytes := by decide }]
  ending := [Ascii.newline]
  rest := []
  isEnding := by decide

theorem value_cut_at_shift_out :
    ¬ shiftOut.Right ({ timeKey := none, timeFmt := none, timeKeep := false, logfmtNoBareKeys := false } : Parser Unit)
      { int := .str, hex := .str, float := .str } [] := by
  have nonempty : shiftOut.fields ≠ [] := cons_ne_nil _ _
  rw [Line.Right, if_neg nonempty]
  rintro ⟨_, result⟩
  have consumed : _ = some (some (6 : Int)) := congrArg (Option.map (Option.map Record.lastByte)) result
  exact absurd consumed (by decide)

end FluentBit.KeyValue
