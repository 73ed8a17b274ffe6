import FluentBit.Foundation.Ascii

/-! The tokeniser of JSON text, after `lib/jsmn/jsmn.h` as it is built here: strict, and with
links from a token to its parent. The array of tokens grows whenever it is full, so it is a
list of those in use. -/

set_option autoImplicit false

namespace FluentBit.Json

open Ascii

/-- `jsmntype_t` -/
inductive Kind where
  | undefined
  | object
  | array
  | string
  | primitive
deriving DecidableEq, Repr

/-- `jsmntok_t`; a token that is still open has no end. -/
structure Token where
  type : Kind
  start : Nat
  stop : Option Nat
  size : Nat
  parent : Option Nat
deriving DecidableEq, Repr

/-- `jsmn_parser` with the tokens it has filled; `toknext` is their number. -/
structure Parser where
  pos : Nat
  tokens : List Token
  toksuper : Option Nat
deriving DecidableEq, Repr

/-- `JSMN_ERROR_INVAL` and `JSMN_ERROR_PART` -/
inductive Failure where
  | inval
  | part
deriving DecidableEq, Repr

def Parser.init : Parser where
  pos := 0
  tokens := []
  toksuper := none

def Token.isOpen (token : Token) : Bool := token.stop.isNone

def endsPrimitive (byte : UInt8) : Bool :=
  isBlank byte || byte == comma || byte == closeBracket || byte == closeBrace

/-- The loop of `jsmn_parse_primitive`: how many bytes the primitive has. -/
def scanPrimitive : Bytes → Except Failure Nat
  | [] => .error .part
  | byte :: rest =>
    if byte = 0 then .error .part
    else if endsPrimitive byte then .ok 0
    else if byte < 32 ∨ 127 ≤ byte then .error .inval
    else (scanPrimitive rest).map (· + 1)

/-- The symbols that may follow a backslash, `u` apart. -/
def isEscape (byte : UInt8) : Bool :=
  byte == quote || byte == letter '/' || byte == backslash || byte == letter 'b' ||
    byte == letter 'f' || byte == letter 'r' || byte == letter 'n' || byte == letter 't'

/-- Where the loop of `jsmn_parse_string` is: behind a backslash, or before some digits of `\u`. -/
inductive Within where
  | plain
  | escape
  | digits (due : Nat)

inductive Scan where
  | closes
  | fails (failure : Failure)
  | goes (within : Within)

def scanByte (byte : UInt8) : Within → Scan
  | .digits (due + 1) =>
    if byte = 0 then .fails .part
    else if isHex byte then .goes (.digits due)
    else .fails .inval
  | .escape =>
    if isEscape byte then .goes .plain
    else if byte = letter 'u' then .goes (.digits 4)
    else .fails .inval
  | _ =>
    if byte = 0 then .fails .part
    else if byte = quote then .closes
    else if byte = backslash then .goes .escape
    else .goes .plain

/-- The loop of `jsmn_parse_string`: how many bytes stand before the closing quote. -/
def scanString : Within → Bytes → Except Failure Nat
  | _, [] => .error .part
  | within, byte :: rest =>
    match scanByte byte within with
    | .closes => .ok 0
    | .fails failure => .error failure
    | .goes within => (scanString within rest).map (· + 1)

namespace Parser

/-- The token that `toksuper` stands for. -/
def superior (parser : Parser) : Option Token := parser.toksuper.bind (parser.tokens[·]?)

def superiorIs (parser : Parser) (kind : Kind) : Bool := parser.superior.any (·.type = kind)

/-- `size++` of the superior token. -/
def counted (parser : Parser) : List Token :=
  match parser.toksuper with
  | none => parser.tokens
  | some index => parser.tokens.modify index fun token => { token with size := token.size + 1 }

def leaf (parser : Parser) (type : Kind) (start stop pos : Nat) : Parser where
  pos := pos
  tokens := parser.counted ++ [{ type, start, stop := some stop, size := 0, parent := parser.toksuper }]
  toksuper := parser.toksuper

def pushed (parser : Parser) (type : Kind) : Parser where
  pos := parser.pos + 1
  tokens := parser.counted ++ [{ type, start := parser.pos, stop := none, size := 0, parent := parser.toksuper }]
  toksuper := some parser.tokens.length

def opened (parser : Parser) (type : Kind) : Except Failure Parser :=
  if parser.superiorIs .object then .error .inval else .ok (parser.pushed type)

def ended (parser : Parser) (index : Nat) (token : Token) : Parser where
  pos := parser.pos + 1
  tokens := parser.tokens.modify index fun token => { token with stop := some (parser.pos + 1) }
  toksuper := token.parent

def moved (parser : Parser) (toksuper : Option Nat) : Parser := { parser with pos := parser.pos + 1, toksuper }

end Parser

def ancestor (tokens : List Token) : Nat → Nat → Option (Nat × Token)
  | 0, _ => none
  | fuel + 1, index =>
    match tokens[index]? with
    | none => none
    | some token =>
      if token.isOpen then some (index, token)
      else
        match token.parent with
        | none => some (index, token)
        | some parent => ancestor tokens fuel parent

namespace Parser

def closed (parser : Parser) (type : Kind) : Except Failure Parser :=
  match ancestor parser.tokens parser.tokens.length (parser.tokens.length - 1) with
  | none => .error .inval
  | some (index, token) =>
    if token.isOpen then
      if token.type ≠ type then .error .inval else .ok (parser.ended index token)
    else if token.type ≠ type ∨ parser.toksuper = none then .error .inval
    else .ok (parser.moved parser.toksuper)

def refusesPrimitive (parser : Parser) : Bool :=
  parser.superior.any fun token => token.type = .object || (token.type = .string && token.size ≠ 0)

end Parser

/-- The cases of the switch in `jsmn_parse`. -/
inductive Symbol where
  | opens (type : Kind)
  | closes (type : Kind)
  | quote
  | blank
  | colon
  | comma
  | primitive
  | other
deriving DecidableEq

def startsPrimitive (byte : UInt8) : Bool :=
  byte == minus || isDigit byte || byte == letter 't' || byte == letter 'f' ||
    byte == letter 'n'

def symbolOf (byte : UInt8) : Symbol :=
  if byte = openBrace then .opens .object
  else if byte = openBracket then .opens .array
  else if byte = closeBrace then .closes .object
  else if byte = closeBracket then .closes .array
  else if byte = quote then .quote
  else if isBlank byte then .blank
  else if byte = colon then .colon
  else if byte = comma then .comma
  else if startsPrimitive byte then .primitive
  else .other

namespace Parser

def lastIndex (parser : Parser) : Option Nat := if parser.tokens = [] then none else some (parser.tokens.length - 1)

def behindComma (parser : Parser) : Option Nat :=
  match parser.superior with
  | none => parser.toksuper
  | some token => if token.type = .array ∨ token.type = .object then parser.toksuper else token.parent

/-- One round of the loop of `jsmn_parse`. -/
def advance (parser : Parser) (byte : UInt8) (rest : Bytes) : Except Failure Parser :=
  match symbolOf byte with
  | .opens type => parser.opened type
  | .closes type => parser.closed type
  | .quote =>
    (scanString .plain rest).map fun length =>
      parser.leaf .string (parser.pos + 1) (parser.pos + 1 + length) (parser.pos + 2 + length)
  | .blank => .ok (parser.moved parser.toksuper)
  | .colon => .ok (parser.moved parser.lastIndex)
  | .comma => .ok (parser.moved parser.behindComma)
  | .primitive =>
    if parser.refusesPrimitive then .error .inval
    else
      (scanPrimitive (byte :: rest)).map fun length =>
        parser.leaf .primitive parser.pos (parser.pos + length) (parser.pos + length)
  | .other => .error .inval

/-- The loop of `jsmn_parse` over the bytes from the position on, at most once for each of them.
A string or a primitive that is not complete leaves the parser at its start. -/
def loop : Nat → Parser → Bytes → Option Failure × Parser
  | 0, parser, _ => (none, parser)
  | _ + 1, parser, [] => (none, parser)
  | fuel + 1, parser, byte :: rest =>
    if byte = 0 then (none, parser)
    else
      match parser.advance byte rest with
      | .error failure => (some failure, parser)
      | .ok next => loop fuel next ((byte :: rest).drop (next.pos - parser.pos))

/-- What `jsmn_parse` gives back behind the loop: the number of tokens, when none of them is open. -/
def finished : Option Failure × Parser → Except Failure Nat × Parser
  | (some failure, parser) => (.error failure, parser)
  | (none, parser) =>
    if parser.tokens.any (·.isOpen) then (.error .part, parser) else (.ok parser.tokens.length, parser)

def parse (parser : Parser) (js : Bytes) : Except Failure Nat × Parser :=
  finished (loop (js.drop parser.pos).length parser (js.drop parser.pos))

end Parser

end FluentBit.Json
