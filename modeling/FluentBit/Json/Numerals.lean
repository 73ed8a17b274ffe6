import FluentBit.Foundation.Binary64
import FluentBit.Foundation.PackerProperties
import FluentBit.Json.Numbers

/-! The numbers of JSON text in each of their spellings, and which of them come out of
`tokens_to_msgpack` with the value that they are written with. -/

set_option autoImplicit false

namespace FluentBit.Json

open List Bool
open Msgpack (Object)

structure Digits where
  text : Bytes
  present : text ≠ []
  decimal : ∀ byte ∈ text, Ascii.isDigit byte = true

inductive Sign where
  | absent
  | plus
  | minus

def Sign.text : Sign → Bytes
  | .absent => []
  | .plus => [Ascii.letter '+']
  | .minus => [Ascii.minus]

structure Exponent where
  capital : Bool
  sign : Sign
  digits : Digits

def Exponent.text (exponent : Exponent) : Bytes :=
  Ascii.letter (if exponent.capital then 'E' else 'e') :: (exponent.sign.text ++ exponent.digits.text)

def Exponent.amount (exponent : Exponent) : Int :=
  match exponent.sign with
  | .minus => -(Ascii.number 10 exponent.digits.text : Int)
  | _ => Ascii.number 10 exponent.digits.text

structure Numeral where
  negative : Bool
  whole : Digits
  fraction : Option Digits
  exponent : Option Exponent

namespace Numeral

def fractionText (numeral : Numeral) : Bytes := numeral.fraction.elim [] fun digits => Ascii.dot :: digits.text

def exponentText (numeral : Numeral) : Bytes := numeral.exponent.elim [] Exponent.text

def text (numeral : Numeral) : Bytes :=
  (if numeral.negative then [Ascii.minus] else []) ++ (numeral.whole.text ++ (numeral.fractionText ++ numeral.exponentText))

def decimals (numeral : Numeral) : Bytes := numeral.fraction.elim [] Digits.text

def shift (numeral : Numeral) : Int := numeral.exponent.elim 0 Exponent.amount

def withSign (numeral : Numeral) (number : Int) : Int := if numeral.negative then -number else number

def value (numeral : Numeral) : ℚ :=
  numeral.withSign (Ascii.number 10 (numeral.whole.text ++ numeral.decimals)) *
    (10 : ℚ) ^ (numeral.shift - numeral.decimals.length)

def leading (numeral : Numeral) : Int := numeral.withSign (Ascii.number 10 numeral.whole.text)

/-- A dot, or an exponent that starts with `e-`. -/
def asDouble (numeral : Numeral) : Bool :=
  numeral.fraction.isSome || numeral.exponent.any fun exponent =>
    !exponent.capital && match exponent.sign with
      | .minus => true
      | _ => false

/-- What is read as a double is one. Any other number has no power of ten that counts and stands below 2⁶³, or it is
an end of the range of an `int64_t`, and what stands in front of the exponent is beyond that end. -/
def Kept (numeral : Numeral) : Prop :=
  if numeral.asDouble then ∃ bits, Binary64.value bits = some numeral.value
  else (numeral.leading = 0 ∨ numeral.shift = 0) ∧ numeral.value < 2 ^ 63 ∨
    numeral.value = 2 ^ 63 - 1 ∧ 2 ^ 63 ≤ numeral.leading ∨ numeral.value = -2 ^ 63 ∧ numeral.leading < -2 ^ 63

end Numeral

def objectValue : Object → Option ℚ
  | .positive u64 => some u64.toNat
  | .negative i64 => some i64.toInt
  | .float32 bits => Binary64.value (Binary64.ofSingle bits)
  | .float64 bits => Binary64.value bits
  | _ => none

def packedValue (limit : Nat) (bytes : Bytes) : Option ℚ :=
  match Msgpack.unpack limit bytes with
  | .done object [] => objectValue object
  | _ => none

variable {rest : Bytes}

/-! ### The bytes of a numeral -/

theorem ends_of_scan {text : Bytes} {length : Nat} (scanned : scanPrimitive text = .ok length) :
    EndsHere (text.drop length) := by
  induction text generalizing length with
  | nil => simp [scanPrimitive] at scanned
  | cons byte text ih =>
    rw [scanPrimitive] at scanned
    split at scanned
    · simp at scanned
    · split at scanned
      next ends =>
        obtain rfl : 0 = length := by simpa using scanned
        exact ⟨byte, rfl, ends⟩
      · split at scanned
        · simp at scanned
        · cases more : scanPrimitive text with
          | error failure => simp [more, Except.map] at scanned
          | ok count =>
            obtain rfl : count + 1 = length := by simpa [more, Except.map] using scanned
            exact ih more

/-- The bytes that `is_float` passes over. -/
def Dull (byte : UInt8) : Prop := byte ≠ Ascii.letter 'e' ∧ byte ≠ Ascii.dot

theorem minus_dull : Dull Ascii.minus := ⟨by decide, by decide⟩

theorem plus_dull : Dull (Ascii.letter '+') := ⟨by decide, by decide⟩

theorem capital_dull : Dull (Ascii.letter 'E') := ⟨by decide, by decide⟩

theorem isFloat_append {before after : Bytes} (dull : ∀ byte ∈ before, Dull byte) :
    isFloat (before ++ after) = isFloat after := by
  induction before with
  | nil => rfl
  | cons byte before ih =>
    obtain ⟨notExponent, notDot⟩ := dull byte (mem_cons_self ..)
    rw [cons_append, isFloat, ih fun other member => dull other (mem_cons_of_mem _ member)]
    simp [notExponent, notDot]

theorem Digits.dull (digits : Digits) : ∀ byte ∈ digits.text, Dull byte := by
  intro byte member
  have facts := digit_facts byte (digits.decimal byte member)
  exact ⟨facts.2.2.2.2.2.1, facts.2.2.2.2.2.2.1⟩

theorem Sign.dull (sign : Sign) : ∀ byte ∈ sign.text, Dull byte := by
  cases sign with
  | absent => simp [Sign.text]
  | plus => simpa [Sign.text] using plus_dull
  | minus => simpa [Sign.text] using minus_dull

theorem Digits.cons (digits : Digits) : ∃ byte more, digits.text = byte :: more ∧ Ascii.isDigit byte = true := by
  cases shape : digits.text with
  | nil => exact absurd shape digits.present
  | cons byte more => exact ⟨byte, more, rfl, digits.decimal byte (by rw [shape]; exact mem_cons_self ..)⟩

theorem isFloat_exponent (exponent : Exponent) {after : Bytes} (plain : isFloat after = false) :
    isFloat (exponent.text ++ after) = (!exponent.capital && match exponent.sign with | .minus => true | _ => false) := by
  obtain ⟨digit, more, shape, isDigit⟩ := exponent.digits.cons
  have notMinus := (digit_facts digit isDigit).2.2.2.1
  have scanned : isFloat (exponent.sign.text ++ exponent.digits.text ++ after) = false := by
    rw [isFloat_append, plain]
    intro byte member
    cases mem_append.mp member with
    | inl inside => exact exponent.sign.dull byte inside
    | inr inside => exact exponent.digits.dull byte inside
  have small : ¬ Ascii.letter 'e' = Ascii.dot := by decide
  rw [Exponent.text, cons_append, isFloat, scanned]
  cases exponent.capital with
  | true => simp [capital_dull.1, capital_dull.2]
  | false =>
    cases exponent.sign with
    | absent => simpa [Sign.text, shape, small] using notMinus
    | plus =>
      have differ : ¬ Ascii.letter '+' = Ascii.minus := by decide
      simpa [Sign.text, small] using differ
    | minus => simp [Sign.text]

theorem sign_dull (negative : Bool) : ∀ byte ∈ (if negative then [Ascii.minus] else []), Dull byte := by
  cases negative with
  | true => simpa using minus_dull
  | false => simp

namespace Numeral

variable (numeral : Numeral)

theorem isFloat_text (ends : EndsHere rest) :
    isFloat ((numeral.text ++ rest).take (numeral.text.length + 1)) = numeral.asDouble := by
  obtain ⟨last, head, ends⟩ := ends
  obtain ⟨more, rfl⟩ : ∃ more, rest = last :: more := ⟨_, eq_cons_of_mem_head? head⟩
  have whole : (numeral.text ++ last :: more).take (numeral.text.length + 1) = numeral.text ++ [last] := by
    simp [take_append, take_of_length_le]
  have lastDull : isFloat [last] = false := isFloat_false fun byte member => by
    obtain rfl := mem_singleton.mp member
    exact (ends_facts byte ends).2
  rw [whole, text, append_assoc, isFloat_append (sign_dull _), append_assoc, isFloat_append numeral.whole.dull,
    asDouble, fractionText, exponentText]
  cases numeral.fraction with
  | some digits => simp [isFloat]
  | none =>
    cases numeral.exponent with
    | none => simpa using lastDull
    | some exponent => simpa using isFloat_exponent exponent lastDull

theorem isNumeral_text : ∀ byte ∈ numeral.text, isNumeral byte = true := by
  have digits : ∀ digits : Digits, ∀ byte ∈ digits.text, isNumeral byte = true := by
    intro digits byte member
    simp [isNumeral, digits.decimal byte member]
  have sign : ∀ sign : Sign, ∀ byte ∈ sign.text, isNumeral byte = true := by
    intro sign
    cases sign with
    | absent => simp [Sign.text]
    | plus | minus => simp [Sign.text, isNumeral]
  intro byte member
  rw [text, mem_append, mem_append, mem_append] at member
  obtain minus | whole | fraction | exponent := member
  · obtain ⟨_, rfl⟩ : numeral.negative = true ∧ byte = Ascii.minus := by simpa using minus
    simp [isNumeral]
  · exact digits _ byte whole
  · cases shape : numeral.fraction with
    | none => simp [fractionText, shape] at fraction
    | some decimals =>
      obtain rfl | inside : byte = Ascii.dot ∨ byte ∈ decimals.text := by simpa [fractionText, shape] using fraction
      · simp [isNumeral]
      · exact digits _ byte inside
  · cases shape : numeral.exponent with
    | none => simp [exponentText, shape] at exponent
    | some power =>
      obtain rfl | inside | inside : byte = Ascii.letter (if power.capital then 'E' else 'e') ∨
          byte ∈ power.sign.text ∨ byte ∈ power.digits.text := by
        simpa [exponentText, shape, Exponent.text] using exponent
      · cases power.capital with
        | true => decide
        | false => decide
      · exact sign _ byte inside
      · exact digits _ byte inside

theorem ends_notNumeral : ∀ byte : UInt8, endsPrimitive byte = true → isNumeral byte = false := by
  apply Ascii.forall_byte
  decide +kernel

theorem takeWhile_isNumeral (ends : EndsHere rest) : (numeral.text ++ rest).takeWhile isNumeral = numeral.text := by
  obtain ⟨byte, head, ends⟩ := ends
  obtain ⟨more, rfl⟩ : ∃ more, rest = byte :: more := ⟨_, eq_cons_of_mem_head? head⟩
  rw [takeWhile_append_of_pos numeral.isNumeral_text, takeWhile_cons, ends_notNumeral byte ends]
  simp

theorem takeWhile_whole (ends : EndsHere rest) :
    (numeral.whole.text ++ (numeral.fractionText ++ numeral.exponentText ++ rest)).takeWhile Ascii.isDigit =
      numeral.whole.text := by
  obtain ⟨last, head, ends⟩ := ends
  obtain ⟨more, rfl⟩ : ∃ more, rest = last :: more := ⟨_, eq_cons_of_mem_head? head⟩
  have stops : (numeral.fractionText ++ numeral.exponentText ++ last :: more).takeWhile Ascii.isDigit = [] := by
    cases fraction : numeral.fraction with
    | some digits =>
      have dot : Ascii.isDigit Ascii.dot = false := by decide
      simp [fractionText, fraction, dot]
    | none =>
      cases exponent : numeral.exponent with
      | none => simp [fractionText, exponentText, fraction, exponent, (ends_facts last ends).1]
      | some power =>
        have mark : Ascii.isDigit (Ascii.letter (if power.capital then 'E' else 'e')) = false := by
          cases power.capital with
          | true => decide
          | false => decide
        simp [fractionText, exponentText, fraction, exponent, Exponent.text, mark]
  rw [takeWhile_append_of_pos numeral.whole.decimal, stops, append_nil]

theorem atoll_text (ends : EndsHere rest) :
    atoll (numeral.text ++ rest) = max (min numeral.leading (2 ^ 63 - 1)) (-2 ^ 63) := by
  have scanned := numeral.takeWhile_whole ends
  obtain ⟨digit, more, shape, isDigit⟩ := numeral.whole.cons
  obtain ⟨_, _, noSpace, notMinus, notPlus, _⟩ := digit_facts digit isDigit
  have minusNoSpace : Ascii.isSpace Ascii.minus = false := by decide
  rw [shape] at scanned
  rw [leading, withSign, text]
  cases numeral.negative with
  | true =>
    simp only [if_true, append_assoc, cons_append, nil_append, shape] at scanned ⊢
    simp only [atoll, dropWhile_cons, minusNoSpace, false_eq_true, if_false, if_true, atollDigits, scanned]
    omega
  | false =>
    simp only [false_eq_true, if_false, append_assoc, cons_append, nil_append, shape] at scanned ⊢
    simp only [atoll, dropWhile_cons, noSpace, notMinus, notPlus, false_eq_true, if_false, atollDigits, scanned]
    omega

section

variable (noFraction : numeral.fraction = none)
include noFraction

theorem value_of_noFraction : numeral.value = numeral.leading * (10 : ℚ) ^ numeral.shift := by
  simp [value, leading, decimals, noFraction]

theorem leading_eq_value_iff : (numeral.leading : ℚ) = numeral.value ↔ numeral.leading = 0 ∨ numeral.shift = 0 := by
  rw [value_of_noFraction numeral noFraction]
  constructor
  · intro same
    by_cases zero : numeral.leading = 0
    · exact .inl zero
    · right
      have unit : (10 : ℚ) ^ numeral.shift = 1 :=
        mul_left_cancel₀ (Int.cast_ne_zero.mpr zero) (same.symm.trans (mul_one _).symm)
      exact (zpow_eq_one_iff_right₀ (by norm_num) (by norm_num)).mp unit
  · intro same
    cases same with
    | inl zero => simp [zero]
    | inr none => simp [none]

theorem clamped_iff {value : Int} (written : numeral.value = value) (low : -2 ^ 63 ≤ value) :
    max (min numeral.leading (2 ^ 63 - 1)) (-2 ^ 63) = value ↔
      (numeral.leading = 0 ∨ numeral.shift = 0) ∧ numeral.value < 2 ^ 63 ∨
        numeral.value = 2 ^ 63 - 1 ∧ 2 ^ 63 ≤ numeral.leading ∨ numeral.value = -2 ^ 63 ∧ numeral.leading < -2 ^ 63 := by
  have exactly : numeral.leading = value ↔ numeral.leading = 0 ∨ numeral.shift = 0 := by
    rw [← numeral.leading_eq_value_iff noFraction, written, Int.cast_inj]
  have below : numeral.value < 2 ^ 63 ↔ value < 2 ^ 63 := by
    rw [written]
    exact_mod_cast Iff.rfl
  have greatest : numeral.value = 2 ^ 63 - 1 ↔ value = 2 ^ 63 - 1 := by
    rw [written]
    exact_mod_cast Iff.rfl
  have least : numeral.value = -2 ^ 63 ↔ value = -2 ^ 63 := by
    rw [written]
    exact_mod_cast Iff.rfl
  rw [← exactly, below, greatest, least]
  omega

end

end Numeral

variable {atof : Bytes → BitVec 64} {limit : Nat}

theorem packedValue_pack {object : Object} (packable : Msgpack.Packable object) (shallow : Msgpack.depth object = 0) :
    packedValue limit (Msgpack.pack object) = objectValue object := by
  have unpacked := Msgpack.unpack_pack packable (shallow.trans_le (Nat.zero_le limit)) []
  rw [append_nil] at unpacked
  rw [packedValue, unpacked]

theorem packedValue_double (bits : BitVec 64) : packedValue limit (Msgpack.packDouble bits) = Binary64.value bits :=
  packedValue_pack (.float64 bits) rfl

theorem packedValue_int {integer : Int} (low : -2 ^ 63 ≤ integer) (high : integer < 2 ^ 63) :
    packedValue limit (Msgpack.packInt integer) = some (integer : ℚ) := by
  by_cases below : integer < 0
  · have bits : (BitVec.ofInt 64 integer).toInt = integer := by
      rw [BitVec.toInt_ofInt, Int.bmod_eq_of_le (by omega) (by omega)]
    have packed := @packedValue_pack limit (.negative (BitVec.ofInt 64 integer)) (.negative (by omega)) rfl
    simpa [Msgpack.pack, objectValue, bits] using packed
  · obtain ⟨number, rfl⟩ := Int.eq_ofNat_of_zero_le (not_lt.mp below)
    have bits : (BitVec.ofNat 64 number).toNat = number := by
      rw [BitVec.toNat_ofNat, Nat.mod_eq_of_lt (by omega)]
    have packed := @packedValue_pack limit (.positive (BitVec.ofNat 64 number)) (.positive _) rfl
    simpa [Msgpack.pack, objectValue, bits, packInt_ofNat] using packed

theorem Numeral.head_text (numeral : Numeral) :
    ∃ byte more, numeral.text = byte :: more ∧ (byte = Ascii.minus ∨ Ascii.isDigit byte = true) := by
  obtain ⟨digit, more, shape, isDigit⟩ := numeral.whole.cons
  rw [Numeral.text, shape]
  cases numeral.negative with
  | true => exact ⟨_, _, rfl, .inl rfl⟩
  | false => exact ⟨_, _, rfl, .inr isDigit⟩

theorem Numeral.packPrimitive_text (numeral : Numeral) (ends : EndsHere rest) :
    packPrimitive atof (numeral.text ++ rest) numeral.text.length =
      if numeral.asDouble then Msgpack.packDouble (atof numeral.text)
      else Msgpack.packInt (max (min numeral.leading (2 ^ 63 - 1)) (-2 ^ 63)) := by
  obtain ⟨byte, more, shape, starts⟩ := numeral.head_text
  have noWord : byte ≠ Ascii.letter 'f' ∧ byte ≠ Ascii.letter 't' ∧ byte ≠ Ascii.letter 'n' := by
    cases starts with
    | inl minus =>
      rw [minus]
      decide
    | inr isDigit => exact (digit_facts byte isDigit).2.2.2.2.2.2.2
  have head : (numeral.text ++ rest).head? = some byte := by rw [shape, cons_append, List.head?_cons]
  rw [packPrimitive, head, numeral.isFloat_text ends, numeral.takeWhile_isNumeral ends, numeral.atoll_text ends]
  simp [noWord.1, noWord.2.1, noWord.2.2]

theorem Numeral.packed_iff (numeral : Numeral) (ends : EndsHere rest) {value : Int} (written : numeral.value = value)
    (low : -2 ^ 63 ≤ value) (exact : numeral.asDouble = true → ∀ bits, Binary64.value bits = some numeral.value →
      Binary64.value (atof numeral.text) = some numeral.value) :
    packedValue limit (packPrimitive atof (numeral.text ++ rest) numeral.text.length) = some numeral.value ↔
      numeral.Kept := by
  rw [numeral.packPrimitive_text ends, Numeral.Kept]
  cases double : numeral.asDouble with
  | true =>
    rw [if_pos rfl, if_pos rfl, packedValue_double]
    constructor
    · exact fun read => ⟨_, read⟩
    · exact fun ⟨bits, stands⟩ => exact double bits stands
  | false =>
    have noFraction : numeral.fraction = none := by
      cases shape : numeral.fraction with
      | none => rfl
      | some digits => simp [Numeral.asDouble, shape] at double
    rw [if_neg (by decide), if_neg (by decide), packedValue_int (by omega) (by omega), Option.some.injEq,
      ← numeral.clamped_iff noFraction written low]
    rw [written, Int.cast_inj]

structure NumberToken (js : Bytes) (token : Token) (numeral : Numeral) : Prop where
  type : token.type = .primitive
  spelled : numeral.text <+: js.drop token.start
  scanned : scanPrimitive (js.drop token.start) = .ok numeral.text.length
  stop : token.stop = some (token.start + numeral.text.length)

/-- What a pass of the loop of `tokens_to_msgpack` adds for a token. -/
def Packs (atof : Bytes → BitVec 64) (js : Bytes) (token : Token) (bytes : Bytes) : Prop :=
  ∀ (tokens : List Token) (packing : Packing),
    packTokens atof js (token :: tokens) packing =
      packTokens atof js tokens {
        bytes := packing.bytes ++ bytes
        lastByte := if token.parent = none then token.stop.getD 0 else packing.lastByte
        records := if token.parent = none then packing.records + 1 else packing.records }

variable {js : Bytes} {token : Token}

theorem Packs.unique {bytes other : Bytes} (packs : Packs atof js token bytes)
    (packsOther : Packs atof js token other) : bytes = other := by
  have same := (packs [] ⟨[], 0, 0⟩).symm.trans (packsOther [] ⟨[], 0, 0⟩)
  simpa [packTokens] using same

theorem NumberToken.packs {numeral : Numeral} (number : NumberToken js token numeral) :
    Packs atof js token (packPrimitive atof (js.drop token.start) numeral.text.length) := by
  obtain ⟨byte, more, shape, _⟩ := numeral.head_text
  intro tokens packing
  have notEmpty : ¬ (token.start = 0 ∧ token.start + numeral.text.length = 0) := by
    rw [shape, length_cons]
    omega
  have packed : packToken atof (js.drop token.start) numeral.text.length token =
      some (packPrimitive atof (js.drop token.start) numeral.text.length) := by
    rw [packToken, number.type]
  simp only [packTokens, number.stop, if_neg notEmpty, Nat.add_sub_cancel_left, packed, Option.getD_some]

theorem NumberToken.packed_iff {js : Bytes} {token : Token} {numeral : Numeral} (number : NumberToken js token numeral)
    {value : Int} (written : numeral.value = value) (low : -2 ^ 63 ≤ value)
    (exact : numeral.asDouble = true → ∀ bits, Binary64.value bits = some numeral.value →
      Binary64.value (atof numeral.text) = some numeral.value) :
    (∃ bytes, Packs atof js token bytes ∧ packedValue limit bytes = some numeral.value) ↔ numeral.Kept := by
  obtain ⟨rest, text⟩ := number.spelled
  have ends : EndsHere rest := by
    have behind := ends_of_scan number.scanned
    rwa [← text, drop_left] at behind
  have packed := @Numeral.packed_iff rest atof limit numeral ends value written low exact
  rw [text] at packed
  rw [← packed]
  constructor
  · intro ⟨bytes, packs, read⟩
    rwa [packs.unique number.packs] at read
  · exact fun read => ⟨_, number.packs, read⟩

/-! ### Integers that `msgpack2json` prints -/

def printedDigits (number : Nat) : Digits where
  text := decimal number
  present := decimal_ne_nil number
  decimal := fun _ => decimal_isDigit

def Numeral.ofInt (integer : Int) : Numeral where
  negative := integer < 0
  whole := printedDigits integer.natAbs
  fraction := none
  exponent := none

variable (integer : Int)

theorem Numeral.text_ofInt : (Numeral.ofInt integer).text = signedDecimal integer := by
  by_cases below : integer < 0
  · simp [text, ofInt, signedDecimal, below, fractionText, exponentText, printedDigits]
  · simp [text, ofInt, signedDecimal, below, fractionText, exponentText, printedDigits]

theorem Numeral.leading_ofInt : (Numeral.ofInt integer).leading = integer := by
  have digits : (Ascii.number 10 (printedDigits integer.natAbs).text : Int) = integer.natAbs := by
    rw [printedDigits, number_decimal]
  by_cases below : integer < 0
  · simp only [leading, ofInt, withSign, digits, below, decide_true, if_true]
    omega
  · simp only [leading, ofInt, withSign, digits, below, decide_false, false_eq_true, if_false]
    omega

theorem Numeral.value_ofInt : (Numeral.ofInt integer).value = integer := by
  rw [value_of_noFraction _ rfl, leading_ofInt]
  simp [shift, ofInt]

theorem Numeral.kept_ofInt (low : -2 ^ 63 ≤ integer) : (Numeral.ofInt integer).Kept ↔ integer < 2 ^ 63 := by
  have below : (Numeral.ofInt integer).value < 2 ^ 63 ↔ integer < 2 ^ 63 := by
    rw [value_ofInt]
    exact_mod_cast Iff.rfl
  have greatest : (Numeral.ofInt integer).value = 2 ^ 63 - 1 ↔ integer = 2 ^ 63 - 1 := by
    rw [value_ofInt]
    exact_mod_cast Iff.rfl
  have least : (Numeral.ofInt integer).value = -2 ^ 63 ↔ integer = -2 ^ 63 := by
    rw [value_ofInt]
    exact_mod_cast Iff.rfl
  have noPower : (Numeral.ofInt integer).shift = 0 := rfl
  have noDouble : (Numeral.ofInt integer).asDouble = false := rfl
  rw [Kept, noDouble, if_neg (by decide), below, greatest, least, leading_ofInt, noPower]
  omega

def ReadsBack (limit : Nat) (object : Object) : Prop :=
  ∀ (text32 : BitVec 32 → Bytes) (text64 : BitVec 64 → Bytes) (atof : Bytes → BitVec 64) (left : Nat)
    (text js : Bytes) (token : Token),
    msgpack2json text32 text64 left object [] = some text → token.type = .primitive → text <+: js.drop token.start →
      scanPrimitive (js.drop token.start) = .ok text.length → token.stop = some (token.start + text.length) →
        ∃ bytes, Packs atof js token bytes ∧ packedValue limit bytes = objectValue object

theorem signedDecimal_stays : ∀ byte ∈ signedDecimal integer, staysPrimitive byte = true := by
  by_cases below : integer < 0
  · exact (signedDecimal_text below).2
  · rw [signedDecimal, if_neg below]
    exact (decimal_text _).2

theorem readsBack_iff {object : Object} {integer : Int} (low : -2 ^ 63 ≤ integer)
    (value : objectValue object = some (integer : ℚ)) (printed : ∀ text32 text64 left,
      msgpack2json text32 text64 left object [] = tryToWrite left [] (signedDecimal integer)) :
    ReadsBack limit object ↔ integer < 2 ^ 63 := by
  have noDouble : (Numeral.ofInt integer).asDouble = true →
      ∀ atof : Bytes → BitVec 64, ∀ bits, Binary64.value bits = some (Numeral.ofInt integer).value →
        Binary64.value (atof (Numeral.ofInt integer).text) = some (Numeral.ofInt integer).value := by
    intro double
    cases double
  rw [← Numeral.kept_ofInt integer low]
  constructor
  · intro reads
    have comma : EndsHere [Ascii.comma] := ⟨_, rfl, by decide⟩
    have scanned := scanPrimitive_ends (signedDecimal_stays integer) comma
    let token : Token :=
      { type := .primitive, start := 0, stop := some (signedDecimal integer).length, size := 0, parent := none }
    have stop : token.stop = some (token.start + (signedDecimal integer).length) := by simp [token]
    have written : tryToWrite ((signedDecimal integer).length + 1) [] (signedDecimal integer) =
        some (signedDecimal integer) := by simp [tryToWrite]
    have spelled : signedDecimal integer <+: (signedDecimal integer ++ [Ascii.comma]).drop token.start := ⟨_, rfl⟩
    have read := reads (fun _ => []) (fun _ => []) (fun _ => 0) _ _ _ token ((printed _ _ _).trans written) rfl spelled
      scanned stop
    rw [value, ← Numeral.value_ofInt] at read
    rw [← Numeral.text_ofInt] at read spelled scanned stop
    have number : NumberToken _ token (.ofInt integer) := ⟨rfl, spelled, scanned, stop⟩
    exact (number.packed_iff (Numeral.value_ofInt integer) low (fun double => noDouble double _)).mp read
  · intro kept text32 text64 atof left text js token written type spelled scanned stop
    obtain rfl : signedDecimal integer = text := by
      rw [printed, tryToWrite] at written
      split at written
      · simp at written
      · simpa using written
    rw [← Numeral.text_ofInt] at spelled scanned stop
    have number : NumberToken js token (.ofInt integer) := ⟨type, spelled, scanned, stop⟩
    rw [value, ← Numeral.value_ofInt]
    exact (number.packed_iff (Numeral.value_ofInt integer) low (fun double => noDouble double _)).mpr kept

/-- A number is packed with its value just when it is kept: when it is no double and all of it stands in front of an
exponent, or is a double and so is its value. Of the integers that are printed, those from 2⁶³ on are not read back. -/
theorem numbers_kept_iff (limit : Nat) :
    (∀ (atof : Bytes → BitVec 64) (js : Bytes) (token : Token) (numeral : Numeral) (value : Int),
      NumberToken js token numeral → numeral.value = value → -2 ^ 63 ≤ value → value < 2 ^ 64 →
        (numeral.asDouble = true → ∀ bits, Binary64.value bits = some numeral.value →
          Binary64.value (atof numeral.text) = some numeral.value) →
        ((∃ bytes, Packs atof js token bytes ∧ packedValue limit bytes = some numeral.value) ↔ numeral.Kept)) ∧
      (∀ u64 : BitVec 64, ReadsBack limit (.positive u64) ↔ u64.toNat < 2 ^ 63) ∧
      ∀ i64 : BitVec 64, ReadsBack limit (.negative i64) := by
  refine ⟨?_, ?_, ?_⟩
  · intro atof js token numeral value number written low _ exact
    exact number.packed_iff written low exact
  · intro u64
    have printed : decimal u64.toNat = signedDecimal (u64.toNat : Int) := by
      rw [signedDecimal, if_neg (by omega), Int.natAbs_natCast]
    rw [@readsBack_iff limit _ u64.toNat (by omega) rfl fun text32 text64 left => by rw [msgpack2json, printed]]
    omega
  · intro i64
    have inRange := BitVec.toInt_lt (x := i64)
    have low := BitVec.le_toInt i64
    exact (readsBack_iff (by omega) rfl fun text32 text64 left => by rw [msgpack2json]).mpr (by omega)

def oneDigit (digit : Fin 10) : Digits where
  text := [UInt8.ofNat (0x30 + digit)]
  present := cons_ne_nil _ _
  decimal := fun byte member => by
    rw [mem_singleton.mp member]
    exact (digit_byte digit).1

/-- `20.0` -/
def twenty : Numeral where
  negative := false
  whole := { text := [0x32, 0x30], present := cons_ne_nil _ _, decimal := by decide +kernel }
  fraction := some (oneDigit 0)
  exponent := none

/-- `1e2` -/
def hundred : Numeral where
  negative := false
  whole := oneDigit 1
  fraction := none
  exponent := some { capital := false, sign := .absent, digits := oneDigit 2 }

theorem twenty_kept : ∃ bytes, Packs (fun _ => 0x4034000000000000) (twenty.text ++ [Ascii.comma])
    { type := .primitive, start := 0, stop := some 4, size := 0, parent := none } bytes ∧
      packedValue 32 bytes = some twenty.value := by
  have value : twenty.value = (20 : Int) := by
    have digits : twenty.withSign (Ascii.number 10 (twenty.whole.text ++ twenty.decimals)) = 200 := by decide
    have power : twenty.shift - twenty.decimals.length = -1 := by decide
    rw [Numeral.value, digits, power]
    norm_num
  have double : Binary64.value 0x4034000000000000 = some twenty.value := by
    rw [value]
    decide +kernel
  have kept : twenty.Kept := ⟨_, double⟩
  apply ((numbers_kept_iff 32).1 _ _ _ _ 20 _ value (by decide) (by decide) fun _ _ _ => double).mpr kept
  constructor
  · rfl
  · exact ⟨_, rfl⟩
  · rfl
  · rfl

/-- Read as an integer, it is one. -/
theorem hundred_reads_one : ¬ ∀ (atof : Bytes → BitVec 64) (js : Bytes) (token : Token) (numeral : Numeral)
    (value : Int), NumberToken js token numeral → numeral.value = value → -2 ^ 63 ≤ value → value < 2 ^ 64 →
      (numeral.asDouble = true → ∀ bits, Binary64.value bits = some numeral.value →
        Binary64.value (atof numeral.text) = some numeral.value) →
      ∃ bytes, Packs atof js token bytes ∧ packedValue 32 bytes = some numeral.value := by
  intro claimed
  have number : NumberToken (hundred.text ++ [Ascii.comma])
      { type := .primitive, start := 0, stop := some 3, size := 0, parent := none } hundred := by
    constructor
    · rfl
    · exact ⟨_, rfl⟩
    · rfl
    · rfl
  have value : hundred.value = (100 : Int) := by
    have digits : hundred.withSign (Ascii.number 10 (hundred.whole.text ++ hundred.decimals)) = 1 := by decide
    have power : hundred.shift - hundred.decimals.length = 2 := by decide
    rw [Numeral.value, digits, power]
    norm_num
  obtain ⟨bytes, packs, read⟩ := claimed (fun _ => 0) _ _ _ _ number value (by decide) (by decide) (by intro double; cases double)
  obtain rfl := packs.unique number.packs
  have one : packedValue 32 (packPrimitive (fun _ => 0) (hundred.text ++ [Ascii.comma]) 3) = some 1 := by decide +kernel
  have same := one.symm.trans read
  rw [value] at same
  norm_num at same

end FluentBit.Json
