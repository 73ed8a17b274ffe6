import FluentBit.Foundation.Msgpack
import Mathlib.Data.Nat.Digits.Defs

/-! The writer of strings, after `flb_utils_write_str` in `src/flb_utils.c`, for both builds of
`include/fluent-bit/flb_simd.h` on x86-64, where a plain `char` is signed. Positions are told by
what is left of the string. -/

set_option autoImplicit false

namespace FluentBit.Json

open Ascii

def hexDigit (value : Nat) : UInt8 := if value < 10 then UInt8.ofNat (0x30 + value) else UInt8.ofNat (0x57 + value)

/-- `\u00XX` -/
def unicodeEscape (byte : UInt8) : Bytes :=
  [backslash, letter 'u', zero, zero, hexDigit (byte.toNat / 16), hexDigit (byte.toNat % 16)]

def jsonEscape (byte : UInt8) : Option Bytes :=
  if byte = quote then some [backslash, quote]
  else if byte = backslash then some [backslash, backslash]
  else if byte = 0x0a then some [backslash, letter 'n']
  else if byte = 0x0d then some [backslash, letter 'r']
  else if byte = 0x09 then some [backslash, letter 't']
  else if byte = 0x08 then some [backslash, letter 'b']
  else if byte = 0x0c then some [backslash, letter 'f']
  else if byte < 0x20 ∨ byte = 0x7f then some (unicodeEscape byte)
  else none

def utf8Len (byte : UInt8) : Nat :=
  if byte < 0xc0 then 1
  else if byte < 0xe0 then 2
  else if byte < 0xf0 then 3
  else if byte < 0xf8 then 4
  else if byte < 0xfc then 5
  else 6

def isContinuation (byte : UInt8) : Bool := 0x80 ≤ byte && byte < 0xc0

/-- A byte of an invalid sequence as a code point of the private block `0xE0`. -/
def fragment (byte : UInt8) : Bytes := [0xee, (0x80 : UInt8) ||| (byte >>> 6), (0x80 : UInt8) ||| (byte &&& 0x3f)]

/-- What the loop over characters does with the next one: what it writes, how many bytes it uses,
what the loop over fragments leaves in the counter, and whether the loop breaks off. -/
structure Step where
  out : Bytes
  used : Nat
  counter : Option Nat
  breaks : Bool

def sequenceBytes (byte : UInt8) (rest : Bytes) : Bytes :=
  byte :: (rest.take (utf8Len byte - 1)).takeWhile isContinuation

def nextStep (byte : UInt8) (rest : Bytes) : Step :=
  match jsonEscape byte with
  | some out => { out, used := 1, counter := none, breaks := false }
  | none =>
    if byte < 0x80 then { out := [byte], used := 1, counter := none, breaks := false }
    else if rest.length + 1 < utf8Len byte then { out := [], used := 1, counter := none, breaks := true }
    else if byte < 0xc0 then { out := fragment byte, used := 1, counter := some 1, breaks := false }
    else
      let bytes := sequenceBytes byte rest
      if bytes.length = utf8Len byte then { out := bytes, used := bytes.length, counter := none, breaks := false }
      else { out := bytes.flatMap fragment, used := bytes.length, counter := some bytes.length, breaks := false }

structure Lanes where
  width : Nat
  special : Bytes → Bool

def isSpecial (byte : UInt8) : Bool := byte ≤ 0x1f || byte == quote || byte == backslash

/-- With `FLB_HAVE_SIMD`: SSE2. -/
def sse2 : Lanes where
  width := 16
  special := fun block => block.any isSpecial

/-- `flb_vector8_has_le` on a vector that is a number. -/
def hasLe (vector byte : BitVec 32) : Bool := (vector - (byte + 1)) &&& ~~~vector &&& 0x80 ≠ 0

/-- Without it: `flb_vector8` is one byte, and a load leaves zero. -/
def noSimd : Lanes where
  width := 1
  special := fun _ => hasLe 0 0x1f

section

variable (lanes : Lanes) (tail : Nat) (beyond : Bytes)

/-- The vector loop: how many bytes it goes over. It may load bytes `beyond` the string; `tail`
bytes at the end of the string do not fill a vector. -/
def cleanLength : Nat → Bytes → Nat
  | 0, _ => 0
  | fuel + 1, rest =>
    if tail < rest.length ∧ lanes.special ((rest ++ beyond).take lanes.width) = false then
      lanes.width + cleanLength fuel (rest.drop lanes.width)
    else 0

def characters : Nat → Nat → Bytes → List Bytes × Bytes
  | 0, _, rest => ([], rest)
  | _ + 1, _, [] => ([], [])
  | fuel + 1, b, byte :: rest =>
    if lanes.width ≤ b then ([], byte :: rest)
    else
      let step := nextStep byte rest
      if step.breaks then ([], (byte :: rest).drop step.used)
      else
        let (later, left) := characters fuel (step.counter.getD b + 1) ((byte :: rest).drop step.used)
        (step.out :: later, left)

def pieces : Nat → Bytes → List Bytes
  | 0, _ => []
  | fuel + 1, rest =>
    let clean := cleanLength lanes tail beyond rest.length rest
    let bulk := if clean = 0 then [] else [(rest ++ beyond).take clean]
    let (written, left) := characters lanes (rest.drop clean).length 0 (rest.drop clean)
    bulk ++ written ++ (if left = [] then [] else pieces fuel left)

end

def writeAll : Nat → List Bytes → Option Bytes
  | _, [] => some []
  | available, piece :: later =>
    if available < piece.length then none else (writeAll (available - piece.length) later).map (piece ++ ·)

/-- `flb_utils_write_str`: nothing for `FLB_FALSE`, or the bytes that are written from the offset
on. Memory behind the string holds `beyond`. -/
def writeStr (lanes : Lanes) (beyond : Bytes) (off size : Nat) (str : Bytes) : Option Bytes :=
  -- the difference of two `size_t` wraps if the offset is behind the buffer
  let available := if off ≤ size then size - off else 2 ^ 64 + size - off
  if available < str.length then none
  else writeAll available (pieces lanes (str.length % lanes.width) beyond str.length str)

/-! MessagePack as JSON text, after `src/flb_pack.c`, in the build without vectors. What `snprintf`
makes of a floating point number is a parameter. -/

open Msgpack (Object)

/-- `try_to_write`: the text behind what is written, if there is room for it. -/
def tryToWrite (left : Nat) (out str : Bytes) : Option Bytes :=
  if left ≤ out.length + str.length then none else some (out ++ str)

def tryToWriteStr (left : Nat) (out str : Bytes) : Option Bytes :=
  (writeStr noSimd [] out.length left str).map (out ++ ·)

/-- `%PRIu64` -/
def decimal (number : Nat) : Bytes :=
  if number = 0 then [zero] else ((Nat.digits 10 number).map fun digit => UInt8.ofNat (0x30 + digit)).reverse

/-- `%PRId64` -/
def signedDecimal (number : Int) : Bytes :=
  if number < 0 then minus :: decimal number.natAbs else decimal number.natAbs

/-- `\x%02x` of a `char`, which is signed. -/
def extByte (byte : UInt8) : Bytes :=
  [backslash, letter 'x'] ++ (if byte < 0x80 then [] else List.replicate 6 (letter 'f')) ++
    [hexDigit (byte.toNat / 16), hexDigit (byte.toNat % 16)]

/-- `key_exists_in_map`, among the entries behind the key. -/
def keyExistsInMap (key : Object) (later : List (Object × Object)) : Bool :=
  match key with
  | .str text => later.any fun entry =>
    match entry.1 with
    | .str other => text == other
    | _ => false
  | _ => false

def writeBody (left : Nat) (text out : Bytes) : Option Bytes :=
  if text = [] then some out else tryToWriteStr left out text

def writeQuoted (left : Nat) (text out : Bytes) : Option Bytes := do
  let out ← tryToWrite left out [quote]
  let out ← writeBody left text out
  tryToWrite left out [quote]

def writeSeparator (left : Nat) (first : Bool) (out : Bytes) : Option Bytes :=
  if first then some out else tryToWrite left out [comma]

def writeExt (left : Nat) : Bytes → Bytes → Option Bytes
  | [], out => some out
  | byte :: data, out => do
      let out ← tryToWrite left out (extByte byte)
      writeExt left data out

section

variable (text32 : BitVec 32 → Bytes) (text64 : BitVec 64 → Bytes) (left : Nat)

mutual

def msgpack2json : Object → Bytes → Option Bytes
  | .nil, out => tryToWrite left out (['n', 'u', 'l', 'l'].map letter)
  | .boolean true, out => tryToWrite left out (['t', 'r', 'u', 'e'].map letter)
  | .boolean false, out => tryToWrite left out (['f', 'a', 'l', 's', 'e'].map letter)
  | .positive u64, out => tryToWrite left out (decimal u64.toNat)
  | .negative i64, out => tryToWrite left out (signedDecimal i64.toInt)
  | .float32 bits, out => tryToWrite left out (text32 bits)
  | .float64 bits, out => tryToWrite left out (text64 bits)
  | .str text, out => writeQuoted left text out
  | .bin data, out => writeQuoted left data out
  | .ext _ data, out => do
      let out ← tryToWrite left out [quote]
      let out ← writeExt left data out
      tryToWrite left out [quote]
  | .array items, out => do
      let out ← tryToWrite left out [openBracket]
      let out ← itemsToJson true items out
      tryToWrite left out [closeBracket]
  | .map entries, out => do
      let out ← tryToWrite left out [openBrace]
      let out ← entriesToJson 0 entries out
      tryToWrite left out [closeBrace]

def itemsToJson : Bool → List Object → Bytes → Option Bytes
  | _, [], out => some out
  | first, item :: items, out => do
      let out ← writeSeparator left first out
      let out ← msgpack2json item out
      itemsToJson false items out

/-- The loop over a map, with the number of entries that are packed. A key that comes again is
left out here. -/
def entriesToJson : Nat → List (Object × Object) → Bytes → Option Bytes
  | _, [], out => some out
  | packed, (key, value) :: entries, out =>
    if keyExistsInMap key entries then entriesToJson packed entries out
    else do
      let out ← writeSeparator left (packed = 0) out
      let out ← msgpack2json key out
      let out ← tryToWrite left out [colon]
      let out ← msgpack2json value out
      entriesToJson (packed + 1) entries out

end

end

/-- `flb_msgpack_to_json`: nothing for a buffer that is too short. -/
def msgpackToJson (text32 : BitVec 32 → Bytes) (text64 : BitVec 64 → Bytes) (size : Nat) (object : Object) :
    Option Bytes :=
  -- the size is a `size_t`
  msgpack2json text32 text64 (if size = 0 then 2 ^ 64 - 1 else size - 1) object []

end FluentBit.Json
