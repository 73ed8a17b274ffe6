import FluentBit.Json.Write
import FluentBit.RecordAccessor.Lookup

/-! Templates of a record accessor, such as `$TAG[1].$key['name'] text`, after
`src/flb_record_accessor.c`, with the scanner and the grammar of a key in
`src/record_accessor/ra.l` and `src/record_accessor/ra.y`. Environment variables are replaced before,
and an allocation does not fail. -/

set_option autoImplicit false

namespace FluentBit.RecordAccessor

open Msgpack Ascii

abbrev dollar : UInt8 := 0x24

abbrev apostrophe : UInt8 := 0x27

/-- The result of `strtol` as an `int`. -/
def toInt (number : Int) : Int := (BitVec.ofInt 32 (max (-2 ^ 63) (min number (2 ^ 63 - 1)))).toInt

def atoi (text : Bytes) : Int :=
  match text.dropWhile isSpace with
  | [] => 0
  | sign :: digits =>
    if sign = minus then toInt (-(number 10 (digits.takeWhile isDigit)))
    else if sign = 0x2b then toInt (number 10 (digits.takeWhile isDigit))
    else toInt (number 10 ((sign :: digits).takeWhile isDigit))

/-! ### Keys -/

/-- `struct flb_ra_subentry`, as it is parsed. -/
inductive ParsedSubentry where
  | str (text : Bytes)
  | arrayId (id : Int)
deriving DecidableEq

/-- `struct flb_ra_key`, as it is parsed. -/
structure ParsedKey where
  name : Bytes
  subkeys : List ParsedSubentry
deriving DecidableEq

inductive Token where
  | dollar
  | openBracket
  | closeBracket
  | punctuation
  | identifier (text : Bytes)
  | string (text : Bytes)
  | integer (number : Int)

def isLetter (byte : UInt8) : Bool :=
  byte == 0x5f || (0x41 ≤ byte && byte ≤ 0x5a) || (0x61 ≤ byte && byte ≤ 0x7a)

def isWord (byte : UInt8) : Bool :=
  isLetter byte || isDigit byte || byte == dot || byte == minus || byte == 0x2f

def scanString : Bytes → Option (Bytes × Bytes)
  | [] => none
  | byte :: rest =>
    if byte ≠ apostrophe then (scanString rest).map fun (text, behind) => (byte :: text, behind)
    else
      match rest with
      | [] => some ([], [])
      | next :: later =>
        if next ≠ apostrophe then some ([], next :: later)
        else
          match scanString later with
          | some (text, behind) => some (apostrophe :: text, behind)
          | none => some ([], next :: later)

def scanToken : Bytes → Option Token × Bytes
  | [] => (none, [])
  | byte :: rest =>
    if byte = zero then (some (.integer 0), rest)
    else if isDigit byte then
      (some (.integer (atoi (byte :: rest.takeWhile isDigit))), rest.dropWhile isDigit)
    else if isLetter byte then (some (.identifier (byte :: rest.takeWhile isWord)), rest.dropWhile isWord)
    else if byte = apostrophe then
      match scanString rest with
      | some (text, behind) => (some (.string text), behind)
      | none => (none, rest)
    else if byte = dollar then (some .dollar, rest)
    else if byte = openBracket then (some .openBracket, rest)
    else if byte = closeBracket then (some .closeBracket, rest)
    else if byte = dot || byte = comma || byte = 0x3b then (some .punctuation, rest)
    -- blanks are left out, and so is any other byte, with a message
    else (none, rest)

def scan : Nat → Bytes → List Token
  | 0, _ => []
  | _ + 1, [] => []
  | fuel + 1, byte :: rest =>
    let (token, behind) := scanToken (byte :: rest)
    token.toList ++ scan fuel behind

/-- `record_subkey` -/
def parseSubkeys : List Token → Option (List ParsedSubentry)
  | [] => some []
  | .openBracket :: .string text :: .closeBracket :: rest => (parseSubkeys rest).map (.str text :: ·)
  | .openBracket :: .integer id :: .closeBracket :: rest => (parseSubkeys rest).map (.arrayId id :: ·)
  | _ => none

/-- `record_key` -/
def parseKey : List Token → Option ParsedKey
  | .dollar :: .identifier name :: rest => (parseSubkeys rest).map fun subkeys => { name, subkeys }
  | _ => none

def metaCreate (text : Bytes) : Option ParsedKey := parseKey (scan text.length text)

/-! ### Parts -/

/-- `struct flb_ra_parser` -/
inductive Part where
  | string (text : Bytes)
  | keymap (key : ParsedKey)
  | regexId (id : Int)
  | tag
  | tagPart (id : Int)
deriving DecidableEq

def isSeparator (byte : UInt8) : Bool :=
  byte == dot || byte == space || byte == comma || byte == quote

/-- How many bytes belong to a key, with the parity of `quote_cnt`. -/
def keyLength : Bool → Bytes → Nat
  | _, [] => 0
  | inside, byte :: rest =>
    if byte = apostrophe then keyLength (!inside) rest + 1
    else if byte = dot ∧ inside then keyLength inside rest + 1
    else if isSeparator byte then 0
    else keyLength inside rest + 1

/-- `TAG` -/
def tagWord : Bytes := [0x54, 0x41, 0x47]

/-- The variables `i`, `pre` and `end` of `ra_parse_buffer`. -/
structure Cursor where
  i : Nat
  pre : Nat
  stop : Int

def searchBracket (text : Bytes) : Int :=
  match text.idxOf? closeBracket with
  | none => -1
  | some index => if index = 0 then -1 else index

/-- The part for the placeholder whose dollar sign is at `i`, and the variables behind it. -/
def raPlaceholder (buf : Bytes) (i : Nat) (stop : Int) : Option (Part × Cursor) :=
  let n := i + 1
  if (buf[n]?.any isDigit) then some (.regexId (atoi (buf.drop n)), { i := i + 1, pre := i + 2, stop })
  else if tagWord <+: buf.drop n then
    if n + 4 < buf.length ∧ buf[n + 3]? = some openBracket then
      let t := n + 3
      let stop := searchBracket (buf.drop t)
      some (.tagPart (atoi (buf.drop (t + 1))), { i := (t + stop + 1).toNat, pre := (t + stop + 1).toNat, stop })
    else some (.tag, { i := n + 3, pre := n + 3, stop := if n + 4 < buf.length then -1 else stop })
  else
    let stop := n + keyLength false (buf.drop n)
    (metaCreate ((buf.take stop).drop i)).map fun key => (.keymap key, { i := stop, pre := stop, stop })

def textBefore (buf : Bytes) (pre i : Nat) : List Part := if pre < i then [.string ((buf.take i).drop pre)] else []

/-- The loop of `ra_parse_buffer`: the parts it adds, and the variables behind it. -/
def raParseLoop (buf : Bytes) : Nat → Cursor → Option (List Part × Cursor)
  | 0, cursor => some ([], cursor)
  | fuel + 1, cursor =>
    if buf.length ≤ cursor.i then some ([], cursor)
    else if buf[cursor.i]? ≠ some dollar then raParseLoop buf fuel { cursor with i := cursor.i + 1 }
    else if buf.length ≤ cursor.i + 1 then some (textBefore buf cursor.pre cursor.i, { cursor with pre := cursor.i })
    else do
      let (part, next) ← raPlaceholder buf cursor.i cursor.stop
      let (parts, last) ← raParseLoop buf fuel { next with i := next.i + 1 }
      return (textBefore buf cursor.pre cursor.i ++ part :: parts, last)

/-- The rest of the text, where the condition of `ra_parse_buffer` takes it. -/
def remaining (buf : Bytes) (cursor : Cursor) : List Part :=
  if (cursor.stop < (cursor.i : Int) - 1 ∧ cursor.pre < cursor.i) ∨ cursor.i = 1 then [.string (buf.drop cursor.pre)] else []

/-- `ra_parse_buffer`; `i` gets to at most one behind the text. -/
def raParseBuffer (buf : Bytes) : Option (List Part) := do
  let (parts, cursor) ← raParseLoop buf (buf.length + 2) { i := 0, pre := 0, stop := 0 }
  return parts ++ remaining buf cursor

/-! ### Translation -/

/-- The parameters of `flb_ra_translate`: the tag, the record and the captures of a search, with the
printers of JSON and of floats. -/
structure Source where
  tag : Bytes
  record : Object
  captures : Int → Option Bytes
  json : Object → Bytes
  float : Object → Bytes

def ParsedSubentry.toSubentry : ParsedSubentry → Option Subentry
  | .str text => if noZero : 0 ∉ text then some (.str ⟨text, noZero⟩) else none
  | .arrayId id => if small : 0 ≤ id ∧ id < 2 ^ 31 then some (.arrayId ⟨id.toNat, by omega⟩) else none

def ParsedKey.toKey (key : ParsedKey) : Option Key :=
  if noZero : 0 ∉ key.name then
    (key.subkeys.mapM ParsedSubentry.toSubentry).map fun subkeys => { name := ⟨key.name, noZero⟩, subkeys }
  else none

def valueText (source : Source) (value : RaValue) : Bytes :=
  match value.val with
  | .bool boolean =>
    match value.o with
    | .map entries => source.json (.map entries)
    | _ => if boolean then [0x74, 0x72, 0x75, 0x65] else [0x66, 0x61, 0x6c, 0x73, 0x65]
  | .int i64 => Json.signedDecimal i64.toInt
  | .float f64 => source.float f64
  | .string string => string
  | .null => [0x6e, 0x75, 0x6c, 0x6c]

/-- `ra_translate_keymap`; nothing is added for a key that is not found. -/
def raTranslateKeymap (source : Source) (key : ParsedKey) : Bytes :=
  match key.toKey.bind fun key => flbRaKeyToValue key source.record with
  | none => []
  | some value => valueText source value

/-- The loop of `ra_translate_tag_part`: the part, if it is found, with `id` and `i`. -/
def tagPartLoop (wanted : Int) (tag : Bytes) : Nat → Nat → Int → Option Bytes × Int × Nat
  | 0, i, id => (none, id, i)
  | fuel + 1, i, id =>
    if tag.length ≤ i then (none, id, i)
    else
      match (tag.drop i).idxOf? dot with
      | none =>
        if i = 0 then (none, id, i)
        else if wanted = id + 1 then (some (tag.drop i), id + 1, i)
        else tagPartLoop wanted tag fuel (i + (tag.length - i) + 1) (id + 1)
      | some stop =>
        if wanted = id + 1 then (some ((tag.drop i).take stop), id + 1, i)
        else tagPartLoop wanted tag fuel (i + stop + 1) (id + 1)

def raTranslateTagPart (wanted : Int) (tag : Bytes) : Bytes :=
  match tagPartLoop wanted tag tag.length 0 (-1) with
  | (some part, _, _) => part
  | (none, id, i) => if wanted = 0 ∧ id = -1 ∧ i < tag.length then tag else []

/-- What `flb_ra_translate` adds for a part. -/
def Part.translate (source : Source) : Part → Bytes
  | .string text => text
  | .keymap key => raTranslateKeymap source key
  | .regexId id => (source.captures id).getD []
  | .tag => source.tag
  | .tagPart id => raTranslateTagPart id source.tag

def flbRaTranslate (source : Source) (parts : List Part) : Bytes := parts.flatMap (Part.translate source)

end FluentBit.RecordAccessor
