import FluentBit.Foundation.Ascii

/-! A group of a multiline stream, after `src/multiline/flb_ml.c`, `flb_ml_rule.c`
and `flb_ml_stream.c`: the buffer that collects the lines of one message, the rules
that decide where a message ends, and the record a flush makes of the buffer.

Regular expressions, parsers and the hash of a metadata entry are parameters. -/

set_option autoImplicit false

namespace FluentBit.Multiline

def newline : UInt8 := 10

inductive Value where
  | str (text : Bytes)
  | other (code : Nat)
deriving DecidableEq

abbrev Map : Type := List (Value × Value)

/-- `strncmp` finds no difference. A string is read as if a NUL followed it. -/
def strncmpEq : Nat → Bytes → Bytes → Bool
  | 0, _, _ => true
  | size + 1, left, right =>
    left.headD 0 == right.headD 0 && (left.headD 0 == 0 || strncmpEq size left.tail right.tail)

/-- A key that a lookup of `name` with size `size` stops at. -/
def keyIs (name : Bytes) (size : Nat) : Value → Bool
  | .str text => text.length == size && strncmpEq size text name
  | .other _ => false

/-- `get_key_id`, with the value it leads to. -/
def getKey (map : Map) : Option Bytes → Option Bytes
  | none => none
  | some name => map.findSome? fun
      | (key, .str text) => if keyIs name name.length key then some text else none
      | _ => none

/-! ### Parsers -/

structure Rule where
  fromStates : List String
  toState : Option String
  regex : Bytes → Bool

def Rule.startState (rule : Rule) : Bool := decide ("start_state" ∈ rule.fromStates)

def toStateMap (rules : List Rule) (rule : Rule) : List Rule :=
  match rule.toState with
  | none => []
  | some state => rules.filter fun other => decide (state ∈ other.fromStates)

inductive Kind where
  | regex (rules : List Rule)
  | endswith
  | eq

/-- `struct flb_ml_parser` with the keys of its instance. `grouped` says that the
definition itself has a `key_group`; `parser` is `flb_parser_do`. -/
structure Parser where
  kind : Kind
  matchStr : Bytes
  negate : Bool
  keyContent : Option Bytes
  keyPattern : Option Bytes
  keyGroup : Option Bytes
  grouped : Bool
  parser : Option (Bytes → Option (Map × Nat))

/-- A line as `package_content` gets it: a raw text, or the content of a map. -/
structure Line where
  map : Option Map
  content : Bytes
  pattern : Option Bytes
  group : Option Bytes
  time : Nat
  metadata : Option Map

structure Piece where
  index : Nat
  text : Bytes
deriving DecidableEq

/-- `struct flb_ml_stream_group`: `context` is `mp_sbuf` and `metadata` is `mp_md_sbuf`,
as lists of the packed maps. `pieces` records what is in `buf`. -/
structure StreamGroup where
  name : Bytes
  buf : Bytes
  ruleToState : Option Rule
  context : List Map
  metadata : List Map
  time : Nat
  pieces : List Piece

def StreamGroup.create (name : Bytes) : StreamGroup :=
  { name, buf := [], ruleToState := none, context := [], metadata := [], time := 0, pieces := [] }

structure Record where
  time : Nat
  metadata : Map
  body : Map
deriving DecidableEq

structure Parcel where
  group : Bytes
  record : Record
  pieces : List Piece
deriving DecidableEq

/-! ### Flush -/

/-- The loop of `flb_ml_flush_metadata_buffer` over the entries of all maps. -/
def deduplicate (hash : Value × Value → Nat) : List Nat → Map → Map
  | _, [] => []
  | seen, entry :: rest =>
    if hash entry ∈ seen then deduplicate hash seen rest
    else entry :: deduplicate hash (hash entry :: seen) rest

def flushMetadataBuffer (hash : Value × Value → Nat) (metadata : List Map) : Map :=
  deduplicate hash [] metadata.flatten

def breaklinePrepare (parser : Parser) (group : StreamGroup) : StreamGroup :=
  if parser.keyContent.isSome ∨ group.buf = [] ∨ group.buf.getLast? = some newline then group
  else { group with buf := group.buf ++ [newline] }

def repack (name buf : Bytes) : Nat → Map → Map
  | _, [] => []
  | size, (key, value) :: rest =>
    if keyIs name size key then (key, .str buf) :: repack name buf buf.length rest
    else (key, value) :: repack name buf size rest

def logKey : Bytes := [108, 111, 103]

def contentKey (parser : Parser) : Bytes := parser.keyContent.getD logKey

def composeRecord (parser : Parser) (group : StreamGroup) : Option Map × StreamGroup :=
  match group.context with
  | map :: _ =>
    (some (repack (contentKey parser) group.buf (contentKey parser).length map),
      { group with context := [], metadata := [] })
  | [] =>
    if group.buf = [] then (none, group)
    else (some [(.str (contentKey parser), .str group.buf)], group)

section

variable (hash : Value × Value → Nat) (parser : Parser) (now : Nat)

def flushStreamGroup (group : StreamGroup) : StreamGroup × List Parcel :=
  let prepared := breaklinePrepare parser group
  let composed := composeRecord parser prepared
  let time := if prepared.time = 0 then now else prepared.time
  ({ composed.2 with buf := [], pieces := [] },
    (composed.1.map fun body =>
      { group := group.name, pieces := prepared.pieces
        record := { time, metadata := flushMetadataBuffer hash composed.2.metadata, body } : Parcel }).toList)

/-! ### Appending -/

def registerContext (line : Line) (group : StreamGroup) : StreamGroup :=
  { group with time := line.time, context := group.context ++ line.map.toList }

def StreamGroup.cat (text : Bytes) (group : StreamGroup) : StreamGroup := { group with buf := group.buf ++ text }

def StreamGroup.add (index : Nat) (line : Line) (group : StreamGroup) : StreamGroup :=
  { group with
    buf := group.buf ++ line.content
    pieces := group.pieces ++ [{ index, text := line.content }] }

def tryFlushingBuffer (rules : List Rule) (group : StreamGroup) : StreamGroup × List Parcel :=
  have starts := match group.ruleToState with
    | none => true
    | some rule => (toStateMap rules rule).any Rule.startState
  if starts = true ∧ group.buf ≠ [] then flushStreamGroup hash parser now group
  else (group, [])

def continuation (rules : List Rule) (group : StreamGroup) (content : Bytes) : Option Rule :=
  group.ruleToState.bind fun current =>
    (toStateMap rules current).find? fun rule => !rule.startState && rule.regex content

def tryStartState (rules : List Rule) (content : Bytes) : Option Rule :=
  rules.find? fun rule => rule.startState && rule.regex content

def continueWith (rule : Rule) (index : Nat) (line : Line) (group : StreamGroup) : StreamGroup :=
  let broken := if group.buf = [] ∨ group.buf.getLast? = some newline then group else group.cat [newline]
  let joined := (if line.content = [] then broken.cat [newline] else broken).add index line
  { joined with ruleToState := some rule }

def ruleProcess (rules : List Rule) (index : Nat) (line : Line) (group : StreamGroup) :
    Option (StreamGroup × List Parcel) :=
  match continuation rules group line.content with
  | some rule => some (tryFlushingBuffer hash parser now rules (continueWith rule index line group))
  | none =>
    match tryStartState rules line.content with
    | some rule =>
      let flushed := if group.buf = [] then (group, []) else flushStreamGroup hash parser now group
      some (registerContext line ({ flushed.1 with ruleToState := some rule }.add index line), flushed.2)
    | none => none

def matchNegate (found : Bool) : Bool := found != parser.negate

/-- What the types `ENDSWITH` and `EQ` do with a line they take. -/
def concatenate (complete : Bool) (index : Nat) (line : Line) (group : StreamGroup) : StreamGroup × List Parcel :=
  let registered := if group.context = [] then registerContext line group else group
  let joined := (breaklinePrepare parser registered).add index line
  if complete then flushStreamGroup hash parser now joined else (joined, [])

/-- The text the types `ENDSWITH` and `EQ` look at. -/
def Line.tested (line : Line) : Bytes := line.pattern.getD line.content

/-- Whether `package_content` looks at the group: a line that is shorter than what a message ends
with is refused before. -/
def readsGroup (line : Line) : Bool :=
  match parser.kind with
  | .endswith => decide (parser.matchStr.length ≤ line.tested.length)
  | _ => true

/-- `package_content`, once the group is known. -/
def packageContent (index : Nat) (line : Line) (group : StreamGroup) : Option (StreamGroup × List Parcel) :=
  let processed := match parser.kind with
    | .regex rules => ruleProcess hash parser now rules index line group
    | .endswith =>
      if parser.matchStr.length ≤ line.tested.length then
        let offset := line.tested.length - parser.matchStr.length
        let complete := matchNegate parser (decide (line.tested.drop offset = parser.matchStr))
        some (concatenate hash parser now complete index line group)
      else none
    | .eq =>
      let complete := matchNegate parser (decide (line.tested = parser.matchStr))
      some (concatenate hash parser now complete index line group)
  processed.map fun result =>
    ({ result.1 with metadata := result.1.metadata ++ line.metadata.toList }, result.2)

end

def maxGroups : Nat := 6

/-- `flb_sds_cmp` finds no difference. -/
def sdsEq (left right : Bytes) : Bool := left.length == right.length && strncmpEq right.length left right

/-- `flb_ml_stream_group_get`: where the group is, and the groups with a new one. -/
def streamGroupGet (parser : Parser) (groups : List StreamGroup) (name : Option Bytes) :
    Option (Nat × List StreamGroup) :=
  match parser.grouped, name with
  | true, some name =>
    match groups.findIdx? fun group => sdsEq group.name name with
    | some place => some (place, groups)
    | none =>
      if maxGroups ≤ groups.length then none
      else some (groups.length, groups ++ [.create name])
  | _, _ => some (0, groups)

end FluentBit.Multiline
