import FluentBit.Json.Spelling

/-! The writer of strings where a plain `char` is unsigned, without vectors, after
`flb_utils_write_str` in `src/flb_utils.c` and `include/fluent-bit/flb_utf8.h`. A character beyond
ASCII is between 0x80 and 0xFF there, so the branch for code points up to U+FFFF is taken. -/

set_option autoImplicit false

namespace FluentBit.Json

/-- `utf8d`: the classes of the bytes, and then for each state the states that the classes lead to. -/
def utf8d : List Nat := [
  0, 0, 0, 0, 0, 0, 0, 0, 0, 0, 0, 0, 0, 0, 0, 0, 0, 0, 0, 0, 0, 0, 0, 0, 0, 0, 0, 0, 0, 0, 0, 0,
  0, 0, 0, 0, 0, 0, 0, 0, 0, 0, 0, 0, 0, 0, 0, 0, 0, 0, 0, 0, 0, 0, 0, 0, 0, 0, 0, 0, 0, 0, 0, 0,
  0, 0, 0, 0, 0, 0, 0, 0, 0, 0, 0, 0, 0, 0, 0, 0, 0, 0, 0, 0, 0, 0, 0, 0, 0, 0, 0, 0, 0, 0, 0, 0,
  0, 0, 0, 0, 0, 0, 0, 0, 0, 0, 0, 0, 0, 0, 0, 0, 0, 0, 0, 0, 0, 0, 0, 0, 0, 0, 0, 0, 0, 0, 0, 0,
  1, 1, 1, 1, 1, 1, 1, 1, 1, 1, 1, 1, 1, 1, 1, 1, 9, 9, 9, 9, 9, 9, 9, 9, 9, 9, 9, 9, 9, 9, 9, 9,
  7, 7, 7, 7, 7, 7, 7, 7, 7, 7, 7, 7, 7, 7, 7, 7, 7, 7, 7, 7, 7, 7, 7, 7, 7, 7, 7, 7, 7, 7, 7, 7,
  8, 8, 2, 2, 2, 2, 2, 2, 2, 2, 2, 2, 2, 2, 2, 2, 2, 2, 2, 2, 2, 2, 2, 2, 2, 2, 2, 2, 2, 2, 2, 2,
  10, 3, 3, 3, 3, 3, 3, 3, 3, 3, 3, 3, 3, 4, 3, 3, 11, 6, 6, 6, 5, 8, 8, 8, 8, 8, 8, 8, 8, 8, 8, 8,
  0, 1, 2, 3, 5, 8, 7, 1, 1, 1, 4, 6, 1, 1, 1, 1,
  1, 1, 1, 1, 1, 1, 1, 1, 1, 1, 1, 1, 1, 1, 1, 1, 1, 0, 1, 1, 1, 1, 1, 0, 1, 0, 1, 1, 1, 1, 1, 1,
  1, 2, 1, 1, 1, 1, 1, 2, 1, 2, 1, 1, 1, 1, 1, 1, 1, 1, 1, 1, 1, 1, 1, 2, 1, 1, 1, 1, 1, 1, 1, 1,
  1, 2, 1, 1, 1, 1, 1, 1, 1, 2, 1, 1, 1, 1, 1, 1, 1, 1, 1, 1, 1, 1, 1, 3, 1, 3, 1, 1, 1, 1, 1, 1,
  1, 3, 1, 1, 1, 1, 1, 3, 1, 3, 1, 1, 1, 1, 1, 1, 1, 3, 1, 1, 1, 1, 1, 1, 1, 1, 1, 1, 1, 1, 1, 1]

def utf8Accept : Nat := 0

/-- `flb_utf8_decode`: the next state, and the code point so far. -/
def utf8Decode (state codep : Nat) (byte : UInt8) : Nat × Nat :=
  let type := utf8d.getD byte.toNat 0
  let codep :=
    if state ≠ utf8Accept then (byte.toNat &&& 0x3f) ||| (codep <<< 6 % 2 ^ 32) else (0xff >>> type) &&& byte.toNat
  (utf8d.getD (256 + state * 16 + type) 0, codep)

def decodeSequence : Bytes → Nat → Nat → Nat × Nat
  | [], state, codepoint => (state, codepoint)
  | byte :: rest, state, codepoint =>
    let (state, codepoint) := utf8Decode state codepoint byte
    if state = utf8Accept then (state, codepoint) else decodeSequence rest state codepoint

def lastDigits : Nat → Nat → Bytes
  | 0, _ => []
  | width + 1, value => lastDigits width (value / 16) ++ [hexDigit (value % 16)]

/-- `%.4x` of a number of 32 bits -/
def hexText (value : Nat) : Bytes :=
  if value < 16 ^ 4 then lastDigits 4 value
  else if value < 16 ^ 5 then lastDigits 5 value
  else if value < 16 ^ 6 then lastDigits 6 value
  else if value < 16 ^ 7 then lastDigits 7 value
  else lastDigits 8 value

def nextStepUnsigned (byte : UInt8) (rest : Bytes) : Bytes × Nat :=
  match jsonEscape byte with
  | some out => (out, 1)
  | none =>
    if byte < 0x80 then ([byte], 1)
    else if rest.length + 1 < utf8Len byte then ([0xef, 0xbf, 0xbd], 1)
    else
      let (state, codepoint) := decodeSequence ((byte :: rest).take (utf8Len byte)) utf8Accept 0
      if state ≠ utf8Accept then ([], utf8Len byte + 1)
      else (Ascii.backslash :: Ascii.letter 'u' :: hexText codepoint, utf8Len byte + 1)

def piecesUnsigned : Nat → Bytes → List Bytes
  | 0, _ => []
  | _ + 1, [] => []
  | fuel + 1, byte :: rest =>
    let (out, used) := nextStepUnsigned byte rest
    out :: piecesUnsigned fuel ((byte :: rest).drop used)

/-- `flb_utils_write_str` without vectors: nothing for `FLB_FALSE`, or the bytes that are written from
the offset on. -/
def writeStrOn (plain : PlainChar) (beyond : Bytes) (off size : Nat) (str : Bytes) : Option Bytes :=
  match plain with
  | .signed => writeStr noSimd beyond off size str
  | .unsigned =>
    -- the difference of two `size_t` wraps if the offset is behind the buffer
    let available := if off ≤ size then size - off else 2 ^ 64 + size - off
    if available < str.length then none else writeAll available (piecesUnsigned str.length str)

/-! Strings through the writer without vectors and the unescaper, for both kinds of plain `char`. -/

open List Nat Ascii UInt8

/-! ### Decoding -/

theorem utf8Decode_lead : (∀ bits < 32, 2 ≤ bits → utf8Decode utf8Accept 0 (UInt8.ofNat (bits + 0xc0)) = (2, bits)) ∧
      (∀ bits < 16, utf8Decode utf8Accept 0 (UInt8.ofNat (bits + 0xe0)) =
        (if bits = 0 then 4 else if bits = 13 then 5 else 3, bits)) ∧
      ∀ bits < 5, utf8Decode utf8Accept 0 (UInt8.ofNat (bits + 0xf0)) =
        (if bits = 0 then 6 else if bits = 4 then 8 else 7, bits) := by
  decide +kernel

theorem utf8Decode_states : ∀ bits < 64, ∀ state < 9, utf8d.getD (256 + state * 16 + utf8d.getD (bits + 0x80) 0) 0 =
      if state = 2 then utf8Accept else if state = 3 ∨ state = 4 ∧ 32 ≤ bits ∨ state = 5 ∧ bits < 32 then 2
      else if state = 7 ∨ state = 6 ∧ 16 ≤ bits ∨ state = 8 ∧ bits < 16 then 3 else 1 := by
  decide +kernel

variable {state codepoint bits value width : Nat} {plain : PlainChar}

theorem utf8Decode_continuation (goesOn : state ≠ utf8Accept) (small : codepoint < 2 ^ 26) (low : bits < 64) :
    utf8Decode state codepoint (UInt8.ofNat (bits + 0x80)) =
      (utf8d.getD (256 + state * 16 + utf8d.getD (bits + 0x80) 0) 0, codepoint * 64 + bits) := by
  have byte : (UInt8.ofNat (bits + 0x80)).toNat = bits + 0x80 := by
    rw [toNat_ofNat', mod_eq_of_lt (by omega)]
  have masked : (bits + 0x80) &&& 0x3f = bits := by
    rw [and_two_pow_sub_one_eq_mod _ 6]
    omega
  have shifted : codepoint <<< 6 % 2 ^ 32 = codepoint * 64 := by
    rw [shiftLeft_eq, mod_eq_of_lt (by omega)]
  rw [utf8Decode, byte, if_pos goesOn, masked, shifted]
  congr 1
  exact @or_mark bits (codepoint * 64) 6 low (by omega) |>.trans (Nat.add_comm _ _)

variable {byte : UInt8}

theorem decodeSequence_step {next : Nat} (rest : Bytes)
    (decoded : utf8Decode state codepoint byte = (next, value)) (goesOn : next ≠ utf8Accept) :
    decodeSequence (byte :: rest) state codepoint = decodeSequence rest next value := by
  rw [decodeSequence, decoded]
  exact if_neg goesOn

theorem decodeSequence_last (rest : Bytes) (decoded : utf8Decode state codepoint byte = (utf8Accept, value)) :
    decodeSequence (byte :: rest) state codepoint = (utf8Accept, value) := by
  rw [decodeSequence, decoded]
  exact if_pos rfl

theorem decodeSequence_second (small : codepoint < 2 ^ 26) (low : bits < 64) :
    decodeSequence [UInt8.ofNat (bits + 0x80)] 2 codepoint = (utf8Accept, codepoint * 64 + bits) := by
  apply decodeSequence_last
  rw [utf8Decode_continuation (by decide) small low, utf8Decode_states bits low 2 (by decide)]
  rfl

theorem char_not_surrogate (char : Char) : char.toNat < 0xd800 ∨ 0xdfff < char.toNat := by
  cases char.valid with
  | inl low => exact .inl low
  | inr high => exact .inr high.1

variable {char : Char}

theorem decodeSequence_char (wide : 0x80 ≤ char.toNat) :
    decodeSequence (String.utf8EncodeChar char) utf8Accept 0 = (utf8Accept, char.toNat) := by
  have range := char_lt char
  have notSurrogate := char_not_surrogate char
  have value : char.val.toNat = char.toNat := rfl
  unfold String.utf8EncodeChar
  rw [value]
  generalize char.toNat = number at range notSurrogate wide
  simp only
  rw [if_neg (by omega)]
  by_cases two : number ≤ 0x7ff
  · have lead := utf8Decode_lead.1 (number / 64 % 0x20) (by omega) (by omega)
    rw [if_pos two, decodeSequence_step _ lead (by decide), decodeSequence_second (by omega) (by omega)]
    congr 1
    omega
  · rw [if_neg two]
    by_cases three : number ≤ 0xffff
    · have lead := utf8Decode_lead.2.1 (number / 4096 % 0x10) (by omega)
      generalize state : (if number / 4096 % 0x10 = 0 then 4 else if number / 4096 % 0x10 = 13 then 5 else 3) = first at lead
      have known : first < 9 ∧ first ≠ utf8Accept := by
        rw [← state, utf8Accept]
        split_ifs <;> decide
      have middle : utf8Decode first (number / 4096 % 0x10) (UInt8.ofNat (number / 64 % 0x40 + 0x80)) =
          (2, number / 4096 % 0x10 * 64 + number / 64 % 0x40) := by
        rw [utf8Decode_continuation known.2 (by omega) (by omega), utf8Decode_states _ (by omega) _ known.1]
        congr 1
        rw [← state]
        split_ifs <;> omega
      rw [if_pos three, decodeSequence_step _ lead known.2, decodeSequence_step _ middle (by decide),
        decodeSequence_second (by omega) (by omega)]
      congr 1
      omega
    · have lead := utf8Decode_lead.2.2 (number / 262144 % 0x08) (by omega)
      generalize state : (if number / 262144 % 0x08 = 0 then 6 else if number / 262144 % 0x08 = 4 then 8 else 7) = first at lead
      have known : first < 9 ∧ first ≠ utf8Accept := by
        rw [← state, utf8Accept]
        split_ifs <;> decide
      have second : utf8Decode first (number / 262144 % 0x08) (UInt8.ofNat (number / 4096 % 0x40 + 0x80)) =
          (3, number / 262144 % 0x08 * 64 + number / 4096 % 0x40) := by
        rw [utf8Decode_continuation known.2 (by omega) (by omega), utf8Decode_states _ (by omega) _ known.1]
        congr 1
        rw [← state]
        split_ifs <;> omega
      have third : utf8Decode 3 (number / 262144 % 0x08 * 64 + number / 4096 % 0x40) (UInt8.ofNat (number / 64 % 0x40 + 0x80)) =
          (2, (number / 262144 % 0x08 * 64 + number / 4096 % 0x40) * 64 + number / 64 % 0x40) := by
        rw [utf8Decode_continuation (by decide) (by omega) (by omega), utf8Decode_states _ (by omega) 3 (by decide)]
        rfl
      rw [if_neg three, decodeSequence_step _ lead known.2, decodeSequence_step _ second (by decide),
        decodeSequence_step _ third (by decide), decodeSequence_second (by omega) (by omega)]
      congr 1
      omega

/-! ### The number in the text -/

theorem hexDigit_spec : ∀ value < 16, isHex (hexDigit value) = true ∧ digitValue (hexDigit value) = value ∧
    hexDigit value < 0x80 ∧ hexDigit value ≠ 0 ∧ hexDigit value ≠ backslash := by
  decide

@[simp] theorem lastDigits_length (width value : Nat) : (lastDigits width value).length = width := by
  induction width generalizing value with
  | zero => rfl
  | succ width ih => rw [lastDigits, length_append, ih, length_singleton]

theorem lastDigits_add (first more value : Nat) :
    lastDigits (first + more) value = lastDigits first (value / 16 ^ more) ++ lastDigits more value := by
  induction more generalizing value with
  | zero => simp [lastDigits]
  | succ more ih =>
    rw [← Nat.add_assoc, lastDigits, ih, lastDigits, Nat.div_div_eq_div_mul, ← Nat.pow_succ', append_assoc]

theorem mem_lastDigits {digit : UInt8} (member : digit ∈ lastDigits width value) :
    ∃ bits < 16, digit = hexDigit bits := by
  induction width generalizing value with
  | zero => cases member
  | succ width ih =>
    rw [lastDigits, mem_append, mem_singleton] at member
    cases member with
    | inl before => exact ih before
    | inr last => exact ⟨value % 16, mod_lt _ (by decide), last⟩

theorem lastDigits_number (fits : value < 16 ^ width) : number 16 (lastDigits width value) = value := by
  induction width generalizing value with
  | zero => exact (lt_one_iff.mp fits).symm
  | succ width ih =>
    have high : value / 16 < 16 ^ width := Nat.div_lt_of_lt_mul (by rwa [Nat.pow_succ'] at fits)
    have low := (hexDigit_spec (value % 16) (mod_lt _ (by decide))).2.1
    have before := ih high
    rw [number] at before
    rw [lastDigits, number, foldl_concat, before, low]
    omega

theorem fourDigits_lastDigits (fits : value < 16 ^ 4) : FourDigits value (lastDigits 4 value) where
  four := lastDigits_length 4 value
  hex := by
    intro digit member
    obtain ⟨bits, small, rfl⟩ := mem_lastDigits member
    exact (hexDigit_spec bits small).1
  value := lastDigits_number fits

theorem hexText_split (range : value < 0x110000) :
    ∃ more ≤ 2, hexText value = lastDigits 4 (value / 16 ^ more) ++ lastDigits more value ∧
      value / 16 ^ more < 16 ^ 4 ∧ (value < 0x10000 → more = 0) ∧ (0x10000 ≤ value → 0x1000 ≤ value / 16 ^ more) := by
  unfold hexText
  by_cases four : value < 16 ^ 4
  · refine ⟨0, by omega, ?_, by omega, fun _ => rfl, fun wide => absurd four (by omega)⟩
    rw [if_pos four, ← lastDigits_add]
  · rw [if_neg four]
    by_cases five : value < 16 ^ 5
    · refine ⟨1, by omega, ?_, by omega, fun low => absurd low (by omega), fun _ => by omega⟩
      rw [if_pos five, ← lastDigits_add]
    · refine ⟨2, by omega, ?_, by omega, fun low => absurd low (by omega), fun _ => by omega⟩
      rw [if_neg five, if_pos (by omega), ← lastDigits_add]

variable {text rest bytes : Bytes}

theorem reads_hexText {more : Nat} (shape : hexText value = lastDigits 4 (value / 16 ^ more) ++ lastDigits more value)
    (fits : value / 16 ^ more < 16 ^ 4) : Unescapes plain (backslash :: letter 'u' :: hexText value)
      (characterBytes (value / 16 ^ more) ++ lastDigits more value) := by
  have digits := fourDigits_lastDigits fits
  have first : Unescapes plain _ _ := Unescapes.unicode digits.four digits.hex
  have others : Unescapes plain (lastDigits more value) (lastDigits more value) := by
    apply Unescapes.verbatim
    intro digit member
    obtain ⟨bits, small, rfl⟩ := mem_lastDigits member
    exact (hexDigit_spec bits small).2.2.2
  rw [digits.value] at first
  rw [shape]
  exact first.append others

/-! ### The text of a string -/

/-- What is written where a plain `char` is unsigned. -/
def unsignedText (text : Bytes) : Bytes := (piecesUnsigned text.length text).flatten

theorem nextStepUnsigned_used (byte : UInt8) (rest : Bytes) : 1 ≤ (nextStepUnsigned byte rest).2 := by
  unfold nextStepUnsigned
  split
  · exact Nat.le_refl _
  · split
    · exact Nat.le_refl _
    · split
      · exact Nat.le_refl _
      · simp only
        split
        · exact Nat.le_add_left _ _
        · exact Nat.le_add_left _ _

theorem piecesUnsigned_fuel {first second : Nat} (enough : text.length ≤ first) (alsoEnough : text.length ≤ second) :
    piecesUnsigned first text = piecesUnsigned second text := by
  induction first generalizing second text with
  | zero =>
    obtain rfl := length_eq_zero_iff.mp (le_zero.mp enough)
    cases second with
    | zero => rfl
    | succ second => rfl
  | succ first ih =>
    cases text with
    | nil =>
      cases second with
      | zero => rfl
      | succ second => rfl
    | cons byte rest =>
      cases second with
      | zero => simp at alsoEnough
      | succ second =>
        have used := nextStepUnsigned_used byte rest
        have left : ((byte :: rest).drop (nextStepUnsigned byte rest).2).length ≤ rest.length := by
          rw [length_drop, length_cons]
          omega
        rw [length_cons] at enough alsoEnough
        simp only [piecesUnsigned]
        rw [ih (by omega) (by omega : _ ≤ second)]

theorem unsignedText_cons {out : Bytes} {used : Nat} (step : nextStepUnsigned byte rest = (out, used)) :
    unsignedText (byte :: rest) = out ++ unsignedText ((byte :: rest).drop used) := by
  have positive := nextStepUnsigned_used byte rest
  rw [step] at positive
  have left : ((byte :: rest).drop used).length ≤ rest.length := by
    rw [length_drop, length_cons]
    omega
  simp only [unsignedText, length_cons, piecesUnsigned, step, flatten_cons]
  rw [piecesUnsigned_fuel left (Nat.le_refl _)]

theorem nextStepUnsigned_ascii (ascii : byte < 0x80) :
    nextStepUnsigned byte rest = (escapeByte byte, 1) := by
  rw [nextStepUnsigned, escapeByte]
  cases jsonEscape byte with
  | none => exact if_pos ascii
  | some out => rfl

theorem nextStepUnsigned_wide (wide : 0x80 ≤ char.toNat) :
    ∃ lead tail, String.utf8EncodeChar char = lead :: tail ∧ (∀ byte ∈ tail, isContinuation byte = true) ∧
      ∀ rest, nextStepUnsigned lead (tail ++ rest) =
        (backslash :: letter 'u' :: hexText char.toNat, tail.length + 2) := by
  have decoded := decodeSequence_char wide
  rcases encoded char with ⟨byte, ascii, shape⟩ | ⟨lead, tail, shape, isLead, continuation, complete⟩
  · have member : byte ∈ String.utf8EncodeChar char := by simp [shape]
    rcases raw_bytes member with ⟨_, low⟩ | high
    · omega
    · exact absurd ascii (UInt8.not_lt.mpr high)
  · refine ⟨lead, tail, shape, continuation, fun rest => ?_⟩
    have high : ¬ lead < 0x80 := UInt8.not_lt.mpr (UInt8.le_trans (by decide) isLead)
    have taken : (lead :: (tail ++ rest)).take (utf8Len lead) = lead :: tail := by
      rw [← complete, take_succ_cons, take_left]
    rw [shape] at decoded
    rw [nextStepUnsigned, jsonEscape_lead lead (UInt8.not_lt.mp high)]
    simp only [high, if_false, taken, decoded]
    rw [if_neg (by rw [length_append]; omega), ← complete]
    rfl

theorem nextStepUnsigned_stray (stray : isContinuation byte = true) :
    nextStepUnsigned byte rest = ([], 2) := by
  have rejected : ∀ byte : UInt8, isContinuation byte = true →
      jsonEscape byte = none ∧ ¬ byte < 0x80 ∧ utf8Len byte = 1 ∧ (decodeSequence [byte] utf8Accept 0).1 ≠ utf8Accept := by
    apply forall_byte
    decide +kernel
  obtain ⟨noEscape, notAscii, single, state⟩ := rejected byte stray
  rw [nextStepUnsigned, noEscape]
  simp only [notAscii, if_false, single, take_succ_cons, take_zero, state, if_true, ne_eq, not_false_eq_true]
  rw [if_neg (by omega)]

inductive Left : Bytes → Prop where
  | whole (chars : List Char) : Left (encoding chars)
  | stray {byte : UInt8} {text : Bytes} (continuation : isContinuation byte = true) : Left text → Left (byte :: text)

theorem Left.strays {strays : Bytes} (continuation : ∀ byte ∈ strays, isContinuation byte = true)
    (left : Left text) : Left (strays ++ text) := by
  induction strays with
  | nil => exact left
  | cons byte strays ih =>
    exact .stray (continuation byte (mem_cons_self ..)) (ih fun other member => continuation other (mem_cons_of_mem _ member))

theorem Left.tail (left : Left text) : Left text.tail := by
  cases left with
  | stray continuation left => exact left
  | whole chars =>
    cases chars with
    | nil => exact .whole []
    | cons char chars =>
      rw [encoding, flatMap_cons]
      rcases encoded char with ⟨byte, _, shape⟩ | ⟨lead, tail, shape, _, continuation, _⟩
      · rw [shape]
        exact .whole chars
      · rw [shape]
        exact .strays continuation (.whole chars)

/-! ### Reading it back -/

theorem reads_escapeByte (ascii : byte < 0x80) : Unescapes plain (escapeByte byte) [byte] := by
  have below : ∀ byte : UInt8, byte < 0x80 → (escapeByte byte).all (· < 0x80) = true ∧ escapeByte byte ≠ [backslash] := by
    apply forall_byte
    decide +kernel
  obtain ⟨single, _⟩ := characterBytes_widen byte
  obtain ⟨head, tail, shape, nonzero, _⟩ := nextCharacter_escapeByte byte []
  have step : ∀ rest, nextCharacterOn plain head (tail ++ rest) = (widen byte, tail.length + 1) := by
    intro rest
    obtain ⟨same, _, sameShape, _, next⟩ := nextCharacter_escapeByte byte rest
    rw [shape] at sameShape
    cases sameShape
    cases tail with
    | nil =>
      have notBackslash : head ≠ backslash := by
        rintro rfl
        exact (below byte ascii).2 shape
      rw [nextCharacterOn_plain notBackslash, ← @nextCharacterOn_plain .signed _ notBackslash ([] ++ rest)]
      exact next
    | cons symbol tail =>
      have small : symbol < 0x80 := forall_mem_of_all (below byte ascii).1 symbol (by simp [shape])
      rw [cons_append, nextCharacterOn_ascii _ small]
      exact next
  rw [shape, ← single]
  exact .character nonzero step (by simp [single])

theorem characterBytes_low {number : Nat} (below : number < 0x10000) : ∀ byte ∈ characterBytes number, byte < 0xf0 := by
  intro byte member
  have small : ∀ value, value < 0xf0 → UInt8.ofNat value < 0xf0 := by
    intro value bound
    rw [lt_iff_toNat_lt, toNat_ofNat', mod_eq_of_lt (by omega)]
    exact bound
  unfold characterBytes toUtf8 at member
  simp only [or_continuation] at member
  by_cases one : number < 0x80
  · rw [if_pos one, if_neg (cons_ne_nil _ _), mem_singleton] at member
    rw [member]
    exact small _ (by omega)
  · by_cases two : number < 0x800
    · have lead : number / 2 ^ 6 ||| 0xc0 = number / 2 ^ 6 + 0xc0 := @or_mark _ _ 6 (by omega) rfl
      rw [if_neg one, if_pos two, if_neg (cons_ne_nil _ _), lead, mem_cons, mem_singleton] at member
      rcases member with rfl | rfl
      · exact small _ (by omega)
      · exact small _ (by omega)
    · have lead : number / 2 ^ 12 ||| 0xe0 = number / 2 ^ 12 + 0xe0 := @or_mark _ _ 5 (by omega) rfl
      rw [if_neg one, if_neg two, if_pos below, if_neg (cons_ne_nil _ _), lead, mem_cons, mem_cons,
        mem_singleton] at member
      rcases member with rfl | rfl | rfl
      · exact small _ (by omega)
      · exact small _ (by omega)
      · exact small _ (by omega)

theorem beyond_lead (beyond : 0x10000 ≤ char.toNat) : ∃ lead ∈ String.utf8EncodeChar char, 0xf0 ≤ lead := by
  have range := char_lt char
  rw [← toUtf8_char, toUtf8, if_neg (by omega), if_neg (by omega), if_neg (by omega), if_pos range]
  refine ⟨_, mem_cons_self .., ?_⟩
  rw [@or_mark _ _ 4 (by omega) rfl, le_iff_toNat_le, toNat_ofNat', mod_eq_of_lt (by omega)]
  exact Nat.le_add_left _ _

structure ReadsLow (text bytes : Bytes) : Prop where
  reads : Unescapes .unsigned (unsignedText text) bytes
  low : ∀ byte ∈ bytes, byte < 0xf0
  shorter : (∀ byte ∈ text, byte < 0xf0) → bytes.length ≤ text.length

theorem reads_wide (wide : 0x80 ≤ char.toNat) {rest bytes : Bytes} (later : ReadsLow rest.tail bytes) :
    ∃ first, ReadsLow (String.utf8EncodeChar char ++ rest) (first ++ bytes) ∧
      (char.toNat < 0x10000 → first = String.utf8EncodeChar char) := by
  obtain ⟨lead, tail, shape, _, step⟩ := nextStepUnsigned_wide wide
  obtain ⟨more, _, split, fits, onlyFour, large⟩ := hexText_split (char_lt char)
  have text : unsignedText (String.utf8EncodeChar char ++ rest) =
      backslash :: letter 'u' :: hexText char.toNat ++ unsignedText rest.tail := by
    have left : (lead :: (tail ++ rest)).drop (tail.length + 2) = rest.tail := by
      rw [drop_succ_cons, ← drop_drop, drop_left, drop_one]
    rw [shape, cons_append, unsignedText_cons (step rest), left]
  have exact4 : char.toNat < 0x10000 →
      characterBytes (char.toNat / 16 ^ more) ++ lastDigits more char.toNat = String.utf8EncodeChar char := by
    intro low
    rw [onlyFour low, Nat.pow_zero, Nat.div_one, characterBytes_char]
    exact append_nil _
  refine ⟨characterBytes (char.toNat / 16 ^ more) ++ lastDigits more char.toNat, ⟨?_, ?_, ?_⟩, exact4⟩
  · rw [text]
    exact (reads_hexText split fits).append later.reads
  · intro byte member
    rw [mem_append, mem_append] at member
    rcases member with (inFirst | inMore) | inLater
    · exact characterBytes_low fits byte inFirst
    · obtain ⟨bits, small, rfl⟩ := mem_lastDigits inMore
      exact UInt8.lt_trans (hexDigit_spec bits small).2.2.1 (by decide)
    · exact later.low byte inLater
  · intro low
    have narrow : char.toNat < 0x10000 := by
      by_contra beyond
      obtain ⟨byte, member, high⟩ := beyond_lead (Nat.le_of_not_lt beyond)
      exact absurd (low byte (mem_append_left _ member)) (UInt8.not_lt.mpr high)
    have fewer := later.shorter fun byte member => low byte (mem_append_right _ (mem_of_mem_tail member))
    rw [exact4 narrow, length_append, length_append]
    rw [length_tail] at fewer
    omega

theorem reads_ascii (ascii : byte < 0x80) (later : ReadsLow rest bytes) : ReadsLow (byte :: rest) (byte :: bytes) where
  reads := by
    have text : unsignedText (byte :: rest) = escapeByte byte ++ unsignedText rest :=
      unsignedText_cons (nextStepUnsigned_ascii ascii)
    rw [text]
    exact (reads_escapeByte ascii).append later.reads
  low := by
    intro other member
    cases mem_cons.mp member with
    | inl same => exact same ▸ UInt8.lt_trans ascii (by decide)
    | inr inLater => exact later.low other inLater
  shorter := by
    intro low
    exact succ_le_succ (later.shorter fun other member => low other (mem_cons_of_mem _ member))

theorem reads_stray (stray : isContinuation byte = true) (later : ReadsLow rest.tail bytes) :
    ReadsLow (byte :: rest) bytes where
  reads := by
    have text : unsignedText (byte :: rest) = unsignedText rest.tail := by
      rw [unsignedText_cons (nextStepUnsigned_stray stray), drop_succ_cons, drop_one]
      rfl
    rw [text]
    exact later.reads
  low := later.low
  shorter := by
    intro low
    have fewer := later.shorter fun other member => low other (mem_cons_of_mem _ (mem_of_mem_tail member))
    rw [length_tail] at fewer
    rw [length_cons]
    omega

theorem ascii_char (narrow : ¬ 0x80 ≤ char.toNat) : ∃ byte < 0x80, String.utf8EncodeChar char = [byte] := by
  refine ⟨UInt8.ofNat char.toNat, ?_, ?_⟩
  · rw [lt_iff_toNat_lt, toNat_ofNat', mod_eq_of_lt (by omega)]
    exact Nat.lt_of_not_le narrow
  · rw [← toUtf8_char, toUtf8, if_pos (by omega)]

theorem encoding_cons (chars : List Char) :
    encoding (char :: chars) = String.utf8EncodeChar char ++ encoding chars := flatMap_cons

theorem readsLow_nil : ReadsLow [] [] where
  reads := .nil
  low := by simp
  shorter := fun _ => Nat.le_refl _

theorem Left.reads {text : Bytes} (left : Left text) : ∃ bytes, ReadsLow text bytes := by
  induction bound : text.length using Nat.strongRecOn generalizing text with
  | ind size ih =>
    cases left with
    | whole chars =>
      cases chars with
      | nil => exact ⟨[], readsLow_nil⟩
      | cons char chars =>
        have some : 1 ≤ (String.utf8EncodeChar char).length := length_pos_iff.mpr String.utf8EncodeChar_ne_nil
        rw [encoding_cons, length_append] at bound
        rw [encoding_cons]
        by_cases wide : 0x80 ≤ char.toNat
        · obtain ⟨bytes, later⟩ := ih (encoding chars).tail.length (by rw [length_tail]; omega)
            (Left.whole chars).tail rfl
          obtain ⟨first, reads, _⟩ := reads_wide wide later
          exact ⟨_, reads⟩
        · obtain ⟨byte, ascii, shape⟩ := ascii_char wide
          obtain ⟨bytes, later⟩ := ih (encoding chars).length (by omega) (.whole chars) rfl
          rw [shape]
          exact ⟨_, reads_ascii ascii later⟩
    | @stray byte rest continuation left =>
      rw [length_cons] at bound
      obtain ⟨bytes, later⟩ := ih rest.tail.length (by rw [length_tail]; omega) left.tail rfl
      exact ⟨_, reads_stray continuation later⟩

def NarrowUpToLast (chars : List Char) : Prop :=
  (∀ char ∈ chars.dropLast, char.toNat < 0x80) ∧ ∀ char ∈ chars.getLast?, char.toNat < 0x10000

theorem NarrowUpToLast.reads {chars : List Char} (narrow : NarrowUpToLast chars) :
    ReadsLow (encoding chars) (encoding chars) := by
  induction chars with
  | nil => exact readsLow_nil
  | cons char chars ih =>
    obtain ⟨ascii, low⟩ := narrow
    rw [encoding_cons]
    by_cases wide : 0x80 ≤ char.toNat
    · -- nothing is behind a wide character
      have last : chars = [] := by
        by_contra more
        have first := ascii char (by rw [dropLast_cons_of_ne_nil more]; exact mem_cons_self ..)
        omega
      subst last
      obtain ⟨first, reads, same⟩ := @reads_wide char wide [] [] readsLow_nil
      rw [same (low char rfl)] at reads
      exact reads
    · obtain ⟨byte, isAscii, shape⟩ := ascii_char wide
      rw [shape]
      apply reads_ascii isAscii
      apply ih
      cases chars with
      | nil => exact ⟨by simp, by simp⟩
      | cons next chars =>
        rw [dropLast_cons_of_ne_nil (cons_ne_nil _ _)] at ascii
        exact ⟨fun other member => ascii other (mem_cons_of_mem _ member), low⟩

theorem narrow_of_reads {chars : List Char} (reads : Unescapes .unsigned (unsignedText (encoding chars)) (encoding chars)) :
    NarrowUpToLast chars := by
  induction chars with
  | nil => exact ⟨by simp, by simp⟩
  | cons char chars ih =>
    rw [encoding_cons] at reads
    by_cases wide : 0x80 ≤ char.toNat
    · obtain ⟨bytes, later⟩ := (Left.whole chars).tail.reads
      obtain ⟨first, whole, narrowFirst⟩ := reads_wide wide later
      have same : first ++ bytes = String.utf8EncodeChar char ++ encoding chars :=
        whole.reads.unescapes.symm.trans reads.unescapes
      have low : ∀ byte ∈ String.utf8EncodeChar char ++ encoding chars, byte < 0xf0 := same ▸ whole.low
      have narrow : char.toNat < 0x10000 := by
        by_contra beyond
        obtain ⟨byte, member, high⟩ := beyond_lead (Nat.le_of_not_lt beyond)
        exact absurd (low byte (mem_append_left _ member)) (UInt8.not_lt.mpr high)
      rw [narrowFirst narrow, append_cancel_left_eq] at same
      have fewer := later.shorter fun byte member => low byte (mem_append_right _ (mem_of_mem_tail member))
      -- a byte that is passed over is missing
      have none : encoding chars = [] := by
        rw [same, length_tail] at fewer
        apply length_eq_zero_iff.mp
        omega
      have last : chars = [] := by
        cases chars with
        | nil => rfl
        | cons next chars =>
          rw [encoding_cons, append_eq_nil_iff] at none
          exact absurd none.1 String.utf8EncodeChar_ne_nil
      subst last
      exact ⟨by simp, by simpa using narrow⟩
    · obtain ⟨byte, ascii, shape⟩ := ascii_char wide
      obtain ⟨bytes, later⟩ := (Left.whole chars).reads
      rw [shape, singleton_append] at reads
      have same : byte :: bytes = byte :: encoding chars :=
        (reads_ascii ascii later).reads.unescapes.symm.trans reads.unescapes
      obtain ⟨asciiRest, low⟩ := ih ((List.cons.inj same).2 ▸ later.reads)
      cases chars with
      | nil => exact ⟨by simp, by simp; omega⟩
      | cons next chars =>
        refine ⟨?_, low⟩
        rw [dropLast_cons_of_ne_nil (cons_ne_nil _ _)]
        intro other member
        cases mem_cons.mp member with
        | inl same =>
          rw [same]
          omega
        | inr inRest => exact asciiRest other inRest

def writtenText : PlainChar → Bytes → Bytes
  | .signed, str => escapeText str
  | .unsigned, str => unsignedText str

theorem writeStrOn_eq (beyond : Bytes) (off size : Nat) (str : Bytes) : writeStrOn plain beyond off size str =
      if (if off ≤ size then size - off else 2 ^ 64 + size - off) < max str.length (writtenText plain str).length then none
      else some (writtenText plain str) := by
  cases plain with
  | signed => exact writeStr_eq noSimd beyond off size str (noSimd_text (Nat.le_refl _))
  | unsigned =>
    have isText : (piecesUnsigned str.length str).flatten = writtenText .unsigned str := rfl
    simp only [writeStrOn, writeAll_eq, isText]
    generalize (if off ≤ size then size - off else 2 ^ 64 + size - off) = available
    by_cases short : available < str.length
    · rw [if_pos short, if_pos (by omega)]
    · rw [if_neg short]
      by_cases fits : (writtenText .unsigned str).length ≤ available
      · rw [if_pos fits, if_neg (by omega)]
      · rw [if_neg fits, if_pos (by omega)]

theorem escapeText_char (chars : List Char) : unescapeStringUtf8On .signed (escapeText (encoding chars)) = encoding chars := by
  have valid : ValidUtf8 (encoding chars) := ⟨chars, rfl⟩
  rw [unescapeStringUtf8On_signed, valid.escapeText, unescape_text]

/-- A valid string comes back, from whatever buffer it fits, if and only if a plain `char` is signed or
only its last character is beyond ASCII, and not beyond U+FFFF. -/
theorem platform_round_trip_iff (plain : PlainChar) (beyond : Bytes) (chars : List Char) (off : Nat) :
    (∃ enough, ∀ size, enough ≤ size → (writeStrOn plain beyond off size (encoding chars)).isSome = true) ∧
      ∀ size text, writeStrOn plain beyond off size (encoding chars) = some text →
        (unescapeStringUtf8On plain text = encoding chars ↔ plain = .signed ∨ NarrowUpToLast chars) := by
  constructor
  · refine ⟨off + (encoding chars).length + (writtenText plain (encoding chars)).length, fun size enough => ?_⟩
    rw [writeStrOn_eq, if_neg (by rw [if_pos (by omega)]; omega)]
    rfl
  · intro size text written
    have isText : writtenText plain (encoding chars) = text := by
      rw [writeStrOn_eq, ite_eq_iff] at written
      cases written with
      | inl short => cases short.2
      | inr fits => exact Option.some.inj fits.2
    subst isText
    cases plain with
    | signed => exact iff_of_true (escapeText_char chars) (.inl rfl)
    | unsigned =>
      obtain ⟨bytes, whole⟩ := (Left.whole chars).reads
      constructor
      · intro same
        have unescaped := whole.reads.unescapes
        rw [← unescaped] at whole
        change unescapeStringUtf8On .unsigned (unsignedText (encoding chars)) = _ at same
        rw [same] at whole
        exact .inr (narrow_of_reads whole.reads)
      · intro narrow
        cases narrow with
        | inl signed => cases signed
        | inr narrow => exact narrow.reads.reads.unescapes

/-- The letter behind an accented one is lost. -/
theorem unsigned_char_loses_letter : writeStrOn .unsigned [] 0 64 (encoding ['é', 'a']) = some (ofString "\\u00e9") ∧
      unescapeStringUtf8On .unsigned (ofString "\\u00e9") ≠ encoding ['é', 'a'] := by
  decide +kernel

end FluentBit.Json
