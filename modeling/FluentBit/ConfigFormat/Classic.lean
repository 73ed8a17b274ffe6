import FluentBit.Http.Client
import Mathlib.Data.List.DropRight

/-! Sections of a configuration, after `src/config_format/flb_config_format.c`, for the classic format.
A pointer to a section is its position in the list of all sections. -/

set_option autoImplicit false

namespace FluentBit.ConfigFormat

open Ascii
open Http (strncasecmp)

abbrev Text := Bytes

inductive SectionType where
  | service
  | parser
  | multilineParser
  | streamProcessor
  | plugins
  | upstreamServers
  | custom
  | input
  | filter
  | output
  | other
deriving DecidableEq, Repr

/-- `struct cfl_kvlist`, with strings as values -/
abbrev KvList := List (Text × Text)

structure Group where
  name : Text
  properties : KvList
deriving DecidableEq

structure Section where
  type : SectionType
  name : Text
  properties : KvList
  groups : List Group
deriving DecidableEq

/-- `struct flb_cf`. The list of each type holds the sections of that type in the order of `sections`. -/
structure Cf where
  service : Option Nat
  metas : KvList
  sections : List Section
deriving DecidableEq

def Cf.create : Cf where
  service := none
  metas := []
  sections := []

def keywords : List (Text × SectionType) :=
  [(ofString "service", .service),
   (ofString "parser", .parser),
   (ofString "multiline_parser", .multilineParser),
   (ofString "stream_processor", .streamProcessor),
   (ofString "plugins", .plugins),
   (ofString "upstream_servers", .upstreamServers),
   (ofString "custom", .custom),
   (ofString "customs", .custom),
   (ofString "input", .input),
   (ofString "inputs", .input),
   (ofString "filter", .filter),
   (ofString "filters", .filter),
   (ofString "output", .output),
   (ofString "outputs", .output)]

/-- `get_section_type`. Behind the `len` bytes of the name stands the rest of the line. -/
def getSectionType (name : Text) (len : Nat) : SectionType :=
  match keywords.find? fun keyword => strncasecmp name keyword.1 len == .eq with
  | some keyword => keyword.2
  | none => .other

/-- `flb_cf_key_translate` for `FLB_CF_CLASSIC` -/
def keyTranslate (key : Text) (len : Nat) : Option Text :=
  if len = 0 then none else some ((key.take len).map tolower)

/-- `flb_sds_trim`; `none` is its -1 for a string of white space only. -/
def sdsTrim (s : Text) : Option Text :=
  if s = [] then some []
  else
    match s.dropWhile isSpace with
    | [] => none
    | left => some (left.rdropWhile isSpace)

/-- The entry that `flb_cf_section_property_add` puts at the end of a list. -/
def sectionProperty (kBuf : Text) (kLen : Nat) (vBuf : Text) (vLen : Nat) : Option (Text × Text) := do
  let key ← keyTranslate kBuf (if kLen = 0 then kBuf.length else kLen)
  let key ← sdsTrim key
  let val ← sdsTrim (vBuf.take (if vLen = 0 then vBuf.length else vLen))
  return (key, val)

/-- `flb_cf_meta_property_add` for a line of `len` bytes -/
def Cf.metaPropertyAdd (cf : Cf) (line : Text) : Option Cf := do
  let xlen ← line.findIdx? (· == space)
  let kBuf := line.drop 1
  let vBuf := line.drop (xlen + 1)
  let key ← sdsTrim (if xlen - 1 = 0 then kBuf else kBuf.take (xlen - 1))
  -- `flb_kv_item_create_len` leaves the value `NULL` when it is empty
  let val ← if vBuf = [] then none else sdsTrim vBuf
  return { cf with metas := cf.metas ++ [(key, val)] }

def Section.addProperty (s : Section) (entry : Text × Text) : Section :=
  { s with properties := s.properties ++ [entry] }

def Group.addProperty (g : Group) (entry : Text × Text) : Group :=
  { g with properties := g.properties ++ [entry] }

def Cf.inSection (cf : Cf) (s : Nat) (change : Section → Section) : Cf :=
  { cf with sections := cf.sections.modify s change }

/-- `flb_cf_group_create`, and the position of the group in its section -/
def Cf.groupCreate (cf : Cf) (s : Nat) (name : Text) (len : Nat) : Option (Cf × Nat) :=
  if name = [] ∨ len < 1 then none
  else
    let g := ((cf.sections[s]?).map fun parent => parent.groups.length).getD 0
    some (cf.inSection s fun parent => { parent with groups := parent.groups ++ [⟨name.take len, []⟩] }, g)

/-- `flb_cf_section_create`, and the pointer it returns -/
def Cf.sectionCreate (cf : Cf) (name : Text) (len : Nat) : Cf × Nat :=
  let len := if len = 0 then name.length else len
  let type := getSectionType name len
  match type, cf.service with
  | .service, some existing => (cf, existing)
  | _, _ =>
    let s := cf.sections.length
    ({ cf with
        service := if type = .service then some s else cf.service
        sections := cf.sections ++ [⟨type, name.take len, [], []⟩] }, s)

/-! The reader of classic configuration files, after `src/config_format/flb_cf_fluentbit.c`. What an
`@INCLUDE` line makes of the configuration is a parameter: it is `read_config` again, on files the
operating system finds. -/

open Http (strncasecmp)

def isblank (byte : UInt8) : Bool := byte == space || byte == tab

def hash : UInt8 := 0x23

def charSearch (string : Text) (c : UInt8) : Option Nat := string.findIdx? (· == c)

/-- `INDENT_OK` and `INDENT_GROUP_CONTENT`, with the level -/
inductive Indentation where
  | ok (level : Nat)
  | groupContent (level : Nat)
deriving DecidableEq

def startsBlank (line : Text) : Bool := (line.head?.map isblank).getD false

/-- What `check_indent` does with the rest of a line whose first `level` bytes are those of the indent. -/
def checkIndentFrom (level : Nat) : Text → Text → Except String Indentation
  | line, [] =>
    if startsBlank line then
      let extra := (line.takeWhile isblank).length
      if extra = level then .ok (.groupContent (level + extra))
      else .error "extra indentation level found"
    else .ok (.ok level)
  | [], _ :: _ => .error "indentation level is too low"
  | byte :: line, first :: indent =>
    if byte = first then checkIndentFrom (level + 1) line indent
    else if isblank byte then .error "inconsistent use of tab and space"
    else .error "indentation level is too low"

def checkIndent (line indent : Text) : Except String Indentation := checkIndentFrom 0 line indent

/-! ### Lines -/

/-- What ends the reading of a file: a `config_error` or `config_warn` with its text, or something else. -/
inductive LineError where
  | config (message : String)
  | notIncluded
  | metaProperty
deriving DecidableEq

/-- The variables of `read_config` that live from one line to the next. A group is known by its position in
the current section. -/
structure Reader where
  cf : Cf
  indent : Option Text
  nKeys : Nat
  currentSection : Option Nat
  currentGroup : Option Nat

def Reader.start (cf : Cf) : Reader where
  cf := cf
  indent := none
  nKeys := 0
  currentSection := none
  currentGroup := none

/-- A line with `[` as its first byte -/
def sectionLine (buf : Text) (r : Reader) : Except LineError Reader :=
  match charSearch buf closeBracket with
  | none => .error (.config "bad header definition")
  | some «end» =>
    let (cf, s) := r.cf.sectionCreate (buf.drop 1) («end» - 1)
    .ok { r with cf := cf, currentSection := some s, currentGroup := none, nKeys := 0 }

/-- A key with `[` as its first byte -/
def groupLine (key : Text) (r : Reader) : Except LineError Reader :=
  match charSearch key closeBracket with
  | none => .error (.config "expected a valid group name: [..]")
  | some «end» =>
    match r.currentSection with
    | none => .error (.config "current group don't have a parent section")
    | some s =>
      if r.currentGroup.isSome ∧ r.nKeys = 0 then .error (.config "previous group did not have keys")
      else
        match r.cf.groupCreate s (key.drop 1) («end» - 1) with
        | none => .ok { r with currentGroup := none }
        | some (cf, g) => .ok { r with cf := cf, currentGroup := some g, nKeys := 0 }

def Reader.addProperty (r : Reader) (entry : Text × Text) : Option Cf :=
  match r.currentSection, r.currentGroup with
  | some s, some g =>
    some (r.cf.inSection s fun parent => { parent with groups := parent.groups.modify g (·.addProperty entry) })
  | some s, none => some (r.cf.inSection s (·.addProperty entry))
  | none, _ => none

/-- A key that a blank ends at `i` -/
def pairLine (key : Text) (i : Nat) (r : Reader) : Except LineError Reader :=
  let val := key.drop (i + 1)
  if val = [] then .error (.config "key has an empty value")
  else
    match (sectionProperty key i val val.length).bind r.addProperty with
    | none => .error (.config "could not allocate key value pair")
    | some cf => .ok { r with cf := cf, nKeys := r.nKeys + 1 }

def keyLine (key : Text) (r : Reader) : Except LineError Reader :=
  match key with
  | [] => .ok r
  | first :: _ =>
    if first = hash then .ok r
    else
      match charSearch key space with
      | none => .error (.config "undefined value - check config is in valid classic format")
      | some i => if first = openBracket then groupLine key r else pairLine key i r

def indentedLine (buf indent : Text) (r : Reader) : Except LineError Reader :=
  match checkIndent buf indent with
  | .error _ => .error (.config "invalid indentation level")
  | .ok (.ok level) => keyLine (buf.drop level) { r with currentGroup := none }
  | .ok (.groupContent level) => keyLine (buf.drop level) r

def indentOf (buf : Text) : Text := buf.take 1 ++ (buf.drop 1).takeWhile isblank

def bodyLine (buf : Text) (r : Reader) : Except LineError Reader :=
  match r.indent with
  | some indent => indentedLine buf indent r
  | none =>
    let indent := indentOf buf
    if indent.length = buf.length then .ok { r with indent := some indent }
    else indentedLine buf indent { r with indent := some indent }

/-- One round of the loop in `read_config`, for a line without its end -/
def readLine (included : Cf → Text → Option Cf) (buf : Text) (r : Reader) : Except LineError Reader :=
  match buf with
  | [] => .ok r
  | first :: _ =>
    if first = hash then .ok r
    else if 9 < buf.length ∧ strncasecmp buf (ofString "@INCLUDE ") 9 = .eq then
      match included r.cf (buf.drop 9) with
      | none => .error .notIncluded
      | some cf => .ok { r with cf := cf }
    else if first = letter '@' ∧ 3 < buf.length then
      match r.cf.metaPropertyAdd buf with
      | none => .error .metaProperty
      | some cf => .ok { r with cf := cf }
    else if first = openBracket then sectionLine buf { r with currentGroup := none }
    else bodyLine buf r

/-! ### The file -/

/-- `fgets` that may write `room` bytes besides the zero byte -/
def fgets : Nat → Bytes → Text × Bytes
  | 0, file => ([], file)
  | _ + 1, [] => ([], [])
  | room + 1, byte :: file =>
    if byte = newline then ([byte], file)
    else
      let (line, rest) := fgets room file
      (byte :: line, rest)

theorem fgets_room (room : Nat) (file : Bytes) : (fgets room file).1.length ≤ room := by
  induction room generalizing file with
  | zero => simp [fgets]
  | succ room ih =>
    cases file with
    | nil => simp [fgets]
    | cons byte file =>
      simp only [fgets]
      split
      · simp
      · simpa using ih file

theorem fgets_shorter {room : Nat} {file : Bytes} (some_room : 0 < room) (more : file ≠ []) :
    (fgets room file).2.length < file.length := by
  have whole : ∀ (room : Nat) (file : Bytes), (fgets room file).2.length ≤ file.length := by
    intro room
    induction room with
    | zero => simp [fgets]
    | succ room ih =>
      intro file
      cases file with
      | nil => simp [fgets]
      | cons byte file =>
        simp only [fgets]
        split
        · simp
        · exact (ih file).trans (Nat.le_succ _)
  cases room with
  | zero => exact absurd some_room (Nat.lt_irrefl 0)
  | succ room =>
    cases file with
    | nil => exact absurd rfl more
    | cons byte file =>
      simp only [fgets]
      split
      · simp
      · exact Nat.lt_succ_of_le (whole room file)

/-- `FLB_DEFAULT_CF_BUF_SIZE` -/
def defaultBufSize : Nat := 4096

def lineHardLimit : Nat := 32 * 1024 * 1024

structure LineBuffer where
  size : Nat
  held : Text
  room : held.length + 1 < size

def LineBuffer.emptied (b : LineBuffer) : LineBuffer where
  size := b.size
  held := []
  room := (Nat.succ_le_succ (Nat.zero_le _)).trans_lt b.room

/-- The text in the buffer after `fgets` has written `chunk`. -/
def LineBuffer.text (b : LineBuffer) (chunk : Text) : Text := CString.text (b.held ++ chunk)

def LineBuffer.doubled (b : LineBuffer) (chunk : Text) (fits : chunk.length ≤ b.size - b.held.length - 1) :
    LineBuffer where
  size := b.size * 2
  held := b.text chunk
  room := by
    have short : (b.text chunk).length ≤ (b.held ++ chunk).length := (List.takeWhile_sublist _).length_le
    have room := b.room
    simp only [List.length_append] at short
    omega

def chomp (text : Text) : Text :=
  let line := text.dropLast
  if line.getLast? = some carriageReturn then line.dropLast else line

inductive ReadError where
  | line (number : Nat) (error : LineError)
  | lineLimit (size : Nat)

/-- The loop of `read_config` after `line` lines. -/
def readLoop (included : Cf → Text → Option Cf) (line : Nat) (b : LineBuffer) (r : Reader) (file : Bytes) :
    Except ReadError Reader :=
  if more : file ≠ [] then
    let space := b.size - b.held.length - 1
    let chunk := fgets space file
    let buf := b.text chunk.1
    if buf.getLast? = some newline then
      match readLine included (chomp buf) r with
      | .error error => .error (.line (line + 1) error)
      | .ok r => readLoop included (line + 1) b.emptied r chunk.2
    else if chunk.1.length < space ∧ chunk.1.getLast? ≠ some newline then
      -- `feof`: the file ends without the end of a line
      match readLine included buf r with
      | .error error => .error (.line (line + 1) error)
      | .ok r => readLoop included (line + 1) b.emptied r chunk.2
    else if lineHardLimit < b.size * 2 then .error (.lineLimit (b.size * 2))
    else readLoop included line (b.doubled chunk.1 (fgets_room _ _)) r chunk.2
  else .ok r
termination_by file.length
decreasing_by
  all_goals
    have room := b.room
    exact fgets_shorter (by omega) more

/-- `read_config` for a file of these bytes -/
def readConfig (included : Cf → Text → Option Cf) (cf : Cf) (file : Bytes) : Except ReadError Cf :=
  (readLoop included 0 ⟨defaultBufSize, [], by decide⟩ (.start cf) file).map (·.cf)

/-- `flb_cf_fluentbit_create` without a configuration to add to; `none` is its `NULL`. -/
def create (included : Cf → Text → Option Cf) (file : Bytes) : Option Cf :=
  (readConfig included .create file).toOption

end FluentBit.ConfigFormat
