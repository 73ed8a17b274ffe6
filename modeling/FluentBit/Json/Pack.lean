import FluentBit.Foundation.Msgpack
import FluentBit.Json.Tokeniser
import FluentBit.Json.Unescape

/-! JSON text as MessagePack, after `src/flb_pack.c`. What `atof` reads is a parameter. -/

set_option autoImplicit false

namespace FluentBit.Json

open Ascii

/-- The loop of `is_float` over the bytes of a token and the one behind it. -/
def isFloat : Bytes → Bool
  | [] => false
  | byte :: rest => (byte == letter 'e' && rest.head? == some minus) || byte == dot || isFloat rest

/-- The digits that `atoll` reads, as a number that is cut to the range of a `long long`. -/
def atollDigits (negative : Bool) (text : Bytes) : Int :=
  let value : Int := number 10 (text.takeWhile isDigit)
  if negative then max (-value) (-2 ^ 63) else min value (2 ^ 63 - 1)

def atoll (text : Bytes) : Int :=
  match text.dropWhile isSpace with
  | [] => 0
  | sign :: rest =>
    if sign = minus then atollDigits true rest
    else if sign = letter '+' then atollDigits false rest
    else atollDigits false (sign :: rest)

def isNumeral (byte : UInt8) : Bool :=
  isDigit byte || (0x41 ≤ byte && byte ≤ 0x5a) || (0x61 ≤ byte && byte ≤ 0x7a) || byte == letter '+' ||
    byte == minus || byte == dot

section

variable (atof : Bytes → BitVec 64)

def packPrimitive (text : Bytes) (length : Nat) : Bytes :=
  if text.head? = some (letter 'f') then Msgpack.packBoolean false
  else if text.head? = some (letter 't') then Msgpack.packBoolean true
  else if text.head? = some (letter 'n') then Msgpack.packNil
  else if isFloat (text.take (length + 1)) then Msgpack.packDouble (atof (text.takeWhile isNumeral))
  else Msgpack.packInt (atoll text)

/-- What a token of some length is packed as; `text` is what starts at the token. -/
def packToken (text : Bytes) (length : Nat) (token : Token) : Option Bytes :=
  match token.type with
  | .object => some (Msgpack.packMap token.size)
  | .array => some (Msgpack.packArray token.size)
  | .string => some (Msgpack.packStr (unescapeStringUtf8 (text.take length)))
  | .primitive => some (packPrimitive atof text length)
  | .undefined => none

/-- What `tokens_to_msgpack` gives back. -/
structure Packing where
  bytes : Bytes
  lastByte : Nat
  records : Nat

/-- The loop of `tokens_to_msgpack` -/
def packTokens (js : Bytes) : List Token → Packing → Option Packing
  | [], packing => some packing
  | token :: rest, packing =>
    match token.stop with
    | none => some packing
    | some stop =>
      if token.start = 0 ∧ stop = 0 then some packing
      else
        match packToken atof (js.drop token.start) (stop - token.start) token with
        | none => none
        | some bytes =>
          packTokens js rest {
            bytes := packing.bytes ++ bytes
            lastByte := if token.parent = none then stop else packing.lastByte
            records := if token.parent = none then packing.records + 1 else packing.records }

def tokensToMsgpack (tokens : List Token) (js : Bytes) : Option Packing :=
  if tokens = [] then none else packTokens atof js tokens { bytes := [], lastByte := 0, records := 0 }

end

structure PackState where
  parser : Parser
  tokensCount : Nat
  lastByte : Nat
deriving DecidableEq, Repr

def PackState.init : PackState where
  parser := .init
  tokensCount := 0
  lastByte := 0

/-- `FLB_ERR_JSON_INVAL`, `FLB_ERR_JSON_PART` and `-1` -/
inductive JsonError where
  | inval
  | part
  | failed
deriving DecidableEq, Repr

def jsonTokenise (js : Bytes) (state : PackState) : Option JsonError × PackState :=
  match state.parser.parse js with
  | (.error .inval, parser) => (some .inval, { state with parser })
  | (.error .part, parser) => (some .part, { state with parser })
  | (.ok count, parser) => (none, { state with parser, tokensCount := state.tokensCount + count })

def delimiter (tokens : List Token) : Nat → Option Nat
  | 0 => none
  | index + 1 =>
    if tokens[index + 1]?.any fun token => token.parent = none && token.stop ≠ some 0 then some (index + 1)
    else delimiter tokens index

section

variable (atof : Bytes → BitVec 64)

/-- What `flb_pack_json_state` does with the tokens that count. -/
def packCounted (js : Bytes) (state : PackState) : Except JsonError Bytes × PackState :=
  if state.tokensCount = 0 then (.error .inval, { state with lastByte := 0 })
  else
    match tokensToMsgpack atof (state.parser.tokens.take state.tokensCount) js with
    | none => (.error .failed, state)
    | some packing => (.ok packing.bytes, { state with lastByte := packing.lastByte })

/-- `flb_pack_json_state`: when the last message is incomplete, those before it are packed. -/
def packJsonState (js : Bytes) (state : PackState) : Except JsonError Bytes × PackState :=
  match jsonTokenise js state with
  | (none, state) => packCounted atof js state
  | (some .part, state) =>
    match delimiter state.parser.tokens (state.parser.tokens.length - 1) with
    | none => (.error .part, state)
    | some delim => packCounted atof js { state with tokensCount := state.tokensCount + delim }
  | (some error, state) => (.error error, state)

def packJson (js : Bytes) : Option Packing :=
  match jsonTokenise js .init with
  | (none, state) => tokensToMsgpack atof (state.parser.tokens.take state.tokensCount) js
  | (some _, _) => none

end

end FluentBit.Json
