import FluentBit.Http.Client

/-! Which header `header_lookup` finds in a response whose head has arrived. -/

set_option autoImplicit false

namespace FluentBit.Http

open List Ascii Separator

def isBlank (byte : UInt8) : Bool := byte == space || byte == tab

/-- A line has neither a zero byte nor one of a line end. -/
def Plain (text : Bytes) : Prop := 0 ∉ text ∧ carriageReturn ∉ text ∧ newline ∉ text

structure Field where
  name : Bytes
  lead : Bytes
  value : Bytes
  trail : Bytes
  plain : Plain (name ++ (colon :: (lead ++ (value ++ trail))))
  blank : ∀ byte ∈ lead, isBlank byte = true

def Field.line (field : Field) : Bytes :=
  field.name ++ (colon :: (field.lead ++ (field.value ++ field.trail)))

structure Response.Head where
  status : Bytes
  plain : Plain status
  nonempty : status ≠ []
  fields : List Field

def lineBytes (lines : List Bytes) : Bytes := lines.flatMap (· ++ crlf)

def Response.Head.lines (head : Response.Head) : List Bytes := head.status :: head.fields.map Field.line

def Response.Head.bytes (head : Response.Head) : Bytes := lineBytes head.lines ++ crlf

section

variable (name : Bytes)

def Field.Is (field : Field) : Prop := field.name.map tolower = name.map tolower
deriving Decidable

def needle : Bytes := name ++ [colon, space]

def place (line : Bytes) : Option Nat := Separator.find ((needle name).map tolower) (line.map tolower)

/-- The value of the first header of a name, for headers that begin at some position. -/
def valueOf : Nat → List Field → Code × Nat × Nat
  | _, [] => (.notFound, 0, 0)
  | start, field :: fields =>
    if field.Is name then (.ok, start + field.name.length + 1 + field.lead.length, field.value.length)
    else valueOf (start + field.line.length + 2) fields

/-- No line has the text in it up to the header of the name, which has one space in front of its value
and nothing behind it. -/
def Clear : List Field → Prop
  | [] => True
  | field :: fields =>
    if field.Is name then field.lead = [space] ∧ field.trail = []
    else place name field.line = none ∧ Clear fields

def rest : Nat → List Bytes → Code × Nat × Nat
  | _, [] => (.notFound, 0, 0)
  | start, line :: lines =>
    match place name line with
    | some hit => (.ok, start + hit + (needle name).length, line.length - hit - (needle name).length)
    | none => rest (start + line.length + 2) lines

end

variable {name : Bytes} {start : Nat}

theorem rest_after {lines : List Bytes} :
    rest name start lines = (.notFound, 0, 0) ∨ (rest name start lines).1 = .ok ∧ start ≤ (rest name start lines).2.1 := by
  induction lines generalizing start with
  | nil => exact .inl rfl
  | cons line lines ih =>
    unfold rest
    split
    · exact .inr ⟨rfl, by simp only; omega⟩
    · exact ih.imp_right fun later => ⟨later.1, by omega⟩

theorem valueOf_after {fields : List Field} : valueOf name start fields = (.notFound, 0, 0) ∨
      (valueOf name start fields).1 = .ok ∧ start ≤ (valueOf name start fields).2.1 := by
  induction fields generalizing start with
  | nil => exact .inl rfl
  | cons field fields ih =>
    unfold valueOf
    split
    · exact .inr ⟨rfl, by simp only; omega⟩
    · exact ih.imp_right fun later => ⟨later.1, by omega⟩

variable {line : Bytes} {field : Field} {byte mark : UInt8} {lines : List Bytes}

theorem place_le {hit : Nat} (found : place name line = some hit) : hit + name.length + 2 ≤ line.length := by
  have bound := find_le found
  simpa [needle, Nat.add_assoc] using bound

theorem Field.length_line :
    field.line.length = field.name.length + 1 + field.lead.length + field.value.length + field.trail.length := by
  simp only [Field.line, length_append, length_cons]
  omega

theorem length_of_is (named : field.Is name) : field.name.length = name.length := by
  simpa using congrArg List.length named

theorem tolower_blank (blank : isBlank byte = true) : tolower byte ≠ colon := by
  obtain rfl | rfl : byte = space ∨ byte = tab := by simpa [isBlank] using blank
  · decide
  · decide

theorem place_space (named : field.Is name) (lead : field.lead = [space]) : place name field.line = some 0 := by
  have here : (needle name).map tolower <+: field.line.map tolower := by
    refine ⟨(field.value ++ field.trail).map tolower, ?_⟩
    simp only [needle, Field.line, lead, map_append, map_cons, map_nil, append_assoc]
    rw [named]
    rfl
  obtain ⟨first, bound, found⟩ : ∃ first ≤ 0, find ((needle name).map tolower) (field.line.map tolower) = some first :=
    find_exists (by simpa using here) (Nat.zero_le _)
  rw [place, found, Nat.le_zero.mp bound]

/-- What a header of the name is found to have is its value exactly when one space leads to it and
nothing follows. -/
theorem place_named (named : field.Is name) :
    (∃ hit, place name field.line = some hit ∧ field.lead.length = hit + 1 ∧ field.trail = []) ↔
    field.lead = [space] ∧ field.trail = [] := by
  constructor
  · rintro ⟨hit, found, lead, trail⟩
    refine ⟨?_, trail⟩
    obtain ⟨more, occurs⟩ := find_occurs found
    cases hit with
    | zero =>
      obtain ⟨byte, only⟩ := length_eq_one_iff.mp lead
      simp only [needle, Field.line, only, drop_zero, map_append, map_cons, map_nil, append_assoc] at occurs
      rw [named] at occurs
      have same : tolower space = tolower byte := (by simpa using append_cancel_left occurs : _ ∧ _).1
      obtain rfl | rfl : byte = space ∨ byte = tab := by
        simpa [isBlank] using field.blank byte (only ▸ mem_singleton_self byte)
      · exact only
      · exact absurd same (by decide)
    | succ hit =>
      -- the colon of the text would be a blank in front of the value
      have colon := congrArg (·[name.length]?) occurs
      have place : hit + 1 + name.length = field.name.length + (hit + 1) := by
        rw [length_of_is named, Nat.add_comm]
      obtain ⟨byte, lead⟩ : ∃ byte, field.lead[hit]? = some byte := ⟨_, getElem?_eq_getElem (by omega)⟩
      have inside : hit < (field.lead.map tolower).length := by rw [length_map]; omega
      simp [needle, Field.line, place, getElem?_append_right] at colon
      rw [getElem?_append_left inside, getElem?_map, lead] at colon
      exact absurd (Option.some.inj colon).symm (tolower_blank (field.blank byte (mem_of_getElem? lead)))
  · rintro ⟨lead, trail⟩
    exact ⟨0, place_space named lead, by rw [lead]; rfl, trail⟩

theorem rest_fields_iff {fields : List Field} :
    rest name start (fields.map Field.line) = valueOf name start fields ↔ Clear name fields := by
  induction fields generalizing start with
  | nil => simp [rest, valueOf, Clear]
  | cons field fields ih =>
    have line := field.length_line
    unfold Clear
    rw [map_cons, rest, valueOf]
    by_cases named : field.Is name
    · have same := length_of_is named
      rw [if_pos named, if_pos named, ← place_named named]
      cases found : place name field.line with
      | none =>
        refine iff_of_false ?_ (by simp)
        intro equal
        obtain missing | ⟨-, later⟩ := @rest_after name (start + field.line.length + 2) (fields.map Field.line)
        · cases missing.symm.trans equal
        · simp only [equal] at later
          omega
      | some hit =>
        have bound := place_le found
        simp only [Prod.mk.injEq, true_and, Option.some.injEq, exists_eq_left', needle, length_append, length_cons,
          length_nil]
        rw [← List.length_eq_zero_iff]
        omega
    · rw [if_neg named, if_neg named]
      cases found : place name field.line with
      | none => simpa using ih
      | some hit =>
        refine iff_of_false ?_ (by simp)
        intro equal
        have bound := place_le found
        obtain missing | ⟨-, later⟩ := @valueOf_after name (start + field.line.length + 2) fields
        · cases missing.symm.trans equal.symm
        · simp only [← equal, needle, length_append, length_cons, length_nil] at later
          omega

/-! What is found across the lines. -/

def firstPlace (name : Bytes) : Nat → List Bytes → Option Nat
  | _, [] => none
  | start, line :: lines => ((place name line).map (· + start)).or (firstPlace name (start + line.length + 2) lines)

theorem tolower_control (control : mark < 0x20) : tolower byte = mark ↔ byte = mark := by
  unfold tolower
  split
  · rename_i upper
    simp only [Bool.and_eq_true, decide_eq_true_eq, UInt8.le_iff_toNat_le] at upper
    rw [UInt8.lt_iff_toNat_lt] at control
    refine iff_of_false ?_ ?_
    · intro same
      have := congrArg UInt8.toNat same
      simp at this upper control
      omega
    · rintro rfl
      simp at upper control
      omega
  · rfl

theorem not_mem_lower (control : mark < 0x20) {text : Bytes} (absent : mark ∉ text) : mark ∉ text.map tolower := by
  intro member
  obtain ⟨byte, inside, same⟩ := mem_map.mp member
  rw [(tolower_control control).mp same] at inside
  exact absent inside

theorem not_mem_needle (control : mark < 0x20) (absent : mark ∉ name) : mark ∉ needle name := by
  rw [needle, mem_append, not_or]
  refine ⟨absent, fun member => ?_⟩
  obtain rfl | rfl : mark = colon ∨ mark = space := by simpa using member
  · exact absurd control (by decide)
  · exact absurd control (by decide)

theorem length_lineBytes_cons : (lineBytes (line :: lines)).length = line.length + 2 + (lineBytes lines).length := by
  simp only [lineBytes, flatMap_cons, length_append, length_cons, length_nil]

theorem find_lines (plain : Plain name) (lines : List Bytes) (more : Bytes) :
    (Separator.find ((needle name).map tolower) ((lineBytes lines).map tolower ++ more)).map (· + start) =
      (firstPlace name start lines).or
        ((Separator.find ((needle name).map tolower) more).map (· + (start + (lineBytes lines).length))) := by
  have nonempty : (needle name).map tolower ≠ [] := by simp [needle]
  have foreignReturn := not_mem_lower (by decide) (not_mem_needle (by decide) plain.2.1)
  have foreignNewline := not_mem_lower (by decide) (not_mem_needle (by decide) plain.2.2)
  induction lines generalizing start with
  | nil => simp [lineBytes, firstPlace]
  | cons line lines ih =>
    have split : (lineBytes (line :: lines)).map tolower ++ more =
        line.map tolower ++ carriageReturn :: ([] ++ newline :: ((lineBytes lines).map tolower ++ more)) := by
      simp [lineBytes, crlf]
      exact ⟨rfl, rfl⟩
    have nowhere : Separator.find ((needle name).map tolower) [] = none := by simp [Separator.find, nonempty]
    have later := @ih (start + line.length + 2)
    rw [split, find_break nonempty foreignReturn, find_break nonempty foreignNewline, nowhere,
      firstPlace, Option.or_assoc, place, length_lineBytes_cons]
    simp only [length_map, length_nil, Option.none_or, Option.map_map, Option.map_or]
    congr 1
    rw [← Nat.add_assoc, ← Nat.add_assoc, ← later]
    congr 1
    funext place
    simp only [Function.comp_apply]
    omega

theorem rest_of_firstPlace {lines : List Bytes} (plain : ∀ line ∈ lines, Plain line) (behind : Bytes) :
    (firstPlace name start lines = none → rest name start lines = (.notFound, 0, 0)) ∧
      ∀ p, firstPlace name start lines = some p → ∃ length,
        rest name start lines = (.ok, p + (needle name).length, length - (needle name).length) ∧
        strstr ((lineBytes lines ++ behind).drop (p - start)) crlf = some length ∧
        start ≤ p ∧ p + length + 2 ≤ start + (lineBytes lines).length := by
  induction lines generalizing start with
  | nil => exact ⟨fun _ => rfl, fun p never => by cases never⟩
  | cons line lines ih =>
    have split : lineBytes (line :: lines) ++ behind = line ++ (crlf ++ (lineBytes lines ++ behind)) := by
      simp [lineBytes]
    obtain ⟨zero, noReturn, -⟩ := plain line mem_cons_self
    rw [firstPlace, rest, split, length_lineBytes_cons]
    cases found : place name line with
    | none =>
      obtain ⟨absent, there⟩ := @ih (start + line.length + 2) fun line member => plain line (mem_cons_of_mem _ member)
      refine ⟨absent, fun p first => ?_⟩
      obtain ⟨length, same, ends, after, before⟩ := there p first
      refine ⟨length, same, ?_, by omega, by omega⟩
      have skip : p - start = line.length + (2 + (p - (start + line.length + 2))) := by omega
      rw [skip, ← drop_drop, drop_left, ← drop_drop]
      exact ends
    | some hit =>
      refine ⟨fun never => by simp at never, fun p first => ?_⟩
      obtain rfl : hit + start = p := by simpa using first
      have bound := place_le found
      refine ⟨line.length - hit, ?_, ?_, by omega, by omega⟩
      · simp only
        rw [Nat.add_comm start]
      · rw [Nat.add_sub_cancel, drop_append_of_le_length (by omega), strstr_line, length_drop]
        · exact fun member => zero (mem_of_mem_drop member)
        · exact fun member => noReturn (mem_of_mem_drop member)

theorem find_skip {first : UInt8} (absent : first ∉ line) (needle more : Bytes) :
    Separator.find (first :: needle) (line ++ more) = (Separator.find (first :: needle) more).map (· + line.length) := by
  induction line with
  | nil => simp
  | cons byte line ih =>
    rw [mem_cons, not_or] at absent
    rw [cons_append, Separator.find, if_neg (by simp [absent.1]), ih absent.2, Option.map_map]
    rfl

section

variable (plain : ∀ line ∈ lines, Plain line ∧ line ≠ []) (nonempty : lines ≠ [])
include plain nonempty

theorem find_emptyLine (behind : Bytes) :
    Separator.find emptyLine (lineBytes lines ++ (crlf ++ behind)) = some ((lineBytes lines).length - 2) := by
  induction lines with
  | nil => exact absurd rfl nonempty
  | cons line lines ih =>
    have split : lineBytes (line :: lines) ++ (crlf ++ behind) = line ++ (crlf ++ (lineBytes lines ++ (crlf ++ behind))) := by
      simp [lineBytes]
    have skip := find_skip (plain line mem_cons_self).1.2.1 [newline, carriageReturn, newline]
    rw [split, length_lineBytes_cons]
    refine (skip _).trans ?_
    cases lines with
    | nil => simp [lineBytes, Separator.find]
    | cons next lines =>
      have later := ih (fun line member => plain line (mem_cons_of_mem _ member)) (by simp)
      have two : 2 ≤ (lineBytes (next :: lines)).length := by
        rw [length_lineBytes_cons]
        omega
      obtain ⟨⟨-, noReturn, -⟩, filled⟩ := plain next (mem_cons_of_mem _ mem_cons_self)
      obtain ⟨byte, bytes, rfl⟩ := exists_cons_of_ne_nil filled
      have apart : carriageReturn ≠ byte := fun same => noReturn (same ▸ mem_cons_self)
      have opened : lineBytes ((byte :: bytes) :: lines) ++ (crlf ++ behind) =
          byte :: (bytes ++ (crlf ++ (lineBytes lines ++ (crlf ++ behind)))) := by
        simp [lineBytes]
      rw [opened] at later ⊢
      have back : Separator.find emptyLine (crlf ++ byte :: (bytes ++ (crlf ++ (lineBytes lines ++ (crlf ++ behind))))) =
          (Separator.find emptyLine (byte :: (bytes ++ (crlf ++ (lineBytes lines ++ (crlf ++ behind)))))).map (· + 2) := by
        simp only [cons_append, nil_append]
        rw [Separator.find, if_neg (by simp [apart]), Separator.find,
          if_neg (by simp [show carriageReturn ≠ newline by decide]), Option.map_map]
        rfl
      refine (congrArg _ back).trans ?_
      rw [later]
      simp only [Option.map_some]
      congr 1
      omega

theorem headerLookup_lines (named : Plain name) (body : Bytes) :
    headerLookup (lineBytes lines ++ (crlf ++ body)) (needle name) = rest name 0 lines := by
  have noZero : 0 ∉ lineBytes lines ++ crlf := by
    simp only [lineBytes, mem_append, mem_flatMap, not_or, not_exists, not_and]
    exact ⟨fun line member => ⟨(plain line member).1.1, by decide⟩, by decide⟩
  have text : CString.text (lineBytes lines ++ (crlf ++ body)) = lineBytes lines ++ (crlf ++ CString.text body) := by
    rw [← append_assoc, CString.text_append noZero, append_assoc]
  have ended : strstr (lineBytes lines ++ (crlf ++ body)) emptyLine = some ((lineBytes lines).length - 2) := by
    rw [strstr, text]
    exact find_emptyLine plain nonempty _
  have found := @find_lines name 0 named lines ((crlf ++ CString.text body).map tolower)
  simp only [Nat.add_zero, Option.map_id', Nat.zero_add] at found
  rw [← map_append] at found
  obtain ⟨absent, there⟩ := @rest_of_firstPlace name 0 lines (fun line member => (plain line member).1) (crlf ++ body)
  unfold headerLookup strcasestr
  rw [text, found, ended]
  cases first : firstPlace name 0 lines with
  | none =>
    rw [absent first, Option.none_or]
    cases Separator.find ((needle name).map tolower) ((crlf ++ CString.text body).map tolower) with
    | none => rfl
    | some place =>
      obtain ⟨line, lines, rfl⟩ := exists_cons_of_ne_nil nonempty
      have behind : (lineBytes (line :: lines)).length - 2 < place + (lineBytes (line :: lines)).length := by
        rw [length_lineBytes_cons]
        omega
      simp [behind]
  | some p =>
    obtain ⟨length, same, ends, -, before⟩ := there p first
    rw [Nat.sub_zero] at ends
    have inside : ¬ (lineBytes lines).length - 2 < p := by omega
    simp only [Option.some_or, Option.any_some, decide_eq_true_eq, if_neg inside, ends, same]

end

structure HeaderName where
  text : Bytes
  plain : Plain text

/-- `header_lookup` finds the first header of the name, or that there is none. -/
def FindsFirst (name : HeaderName) (head : Response.Head) (body : Bytes) : Prop :=
  headerLookup (head.bytes ++ body) (needle name.text) = valueOf name.text (head.status.length + 2) head.fields

/-- The value found is that of the first header of the name, if and only if no line in front has the text in it
and the header is written with just one space. -/
theorem headerLookup_first_iff (name : HeaderName) (head : Response.Head) (body : Bytes) :
    FindsFirst name head body ↔ place name.text head.status = none ∧ Clear name.text head.fields := by
  have plain : ∀ line ∈ head.lines, Plain line ∧ line ≠ [] := by
    intro line member
    obtain rfl | inFields := mem_cons.mp member
    · exact ⟨head.plain, head.nonempty⟩
    · obtain ⟨field, -, rfl⟩ := mem_map.mp inFields
      exact ⟨field.plain, by simp [Field.line]⟩
  rw [FindsFirst, Response.Head.bytes, append_assoc, headerLookup_lines plain (by simp [Response.Head.lines]) name.plain,
    Response.Head.lines, rest]
  cases found : place name.text head.status with
  | none => simp [rest_fields_iff]
  | some hit =>
    refine iff_of_false ?_ (by simp)
    intro equal
    have bound := place_le found
    obtain missing | ⟨-, later⟩ := @valueOf_after name.text (head.status.length + 2) head.fields
    · cases missing.symm.trans equal.symm
    · simp only [← equal, needle, length_append, length_cons, length_nil] at later
      omega

def contentLength : HeaderName where
  text := ofString "Content-Length"
  plain := ⟨by decide, by decide, by decide⟩

def foreignLength : Response.Head where
  status := ofString "HTTP/1.1 200 OK"
  plain := ⟨by decide, by decide, by decide⟩
  nonempty := by decide
  fields := [{
    name := ofString "X-Content-Length", lead := [space], value := [0x35], trail := []
    plain := ⟨by decide, by decide, by decide⟩
    blank := forall_mem_singleton.mpr rfl }]

/-- The content length is taken from the header `X-Content-Length`. -/
theorem headerLookup_foreign : ¬ FindsFirst contentLength foreignLength [] := by
  unfold FindsFirst
  decide +kernel

end FluentBit.Http
