import FluentBit.Json.StringRoundTrip

/-! String bodies whose characters are spelled in any way JSON knows. A surrogate pair is read as two
characters; everything else is read as it is meant. -/

set_option autoImplicit false

namespace FluentBit.Json

open List Ascii

/-- How a character is written: as it is, by a letter behind a backslash, by its number, or by the
numbers of two surrogates. -/
inductive Spelling where
  | raw
  | short (symbol : UInt8)
  | unicode (digits : Bytes)
  | pair (high low : Bytes)

def shortEscapes : List (UInt8 × Char) :=
  [(quote, '"'), (backslash, '\\'), (letter '/', '/'), (letter 'b', '\x08'),
    (letter 'f', '\x0c'), (letter 'n', '\n'), (letter 'r', '\r'), (letter 't', '\t')]

structure FourDigits (number : Nat) (digits : Bytes) : Prop where
  four : digits.length = 4
  hex : ∀ digit ∈ digits, isHex digit = true
  value : Ascii.number 16 digits = number

namespace Spelling

def text (char : Char) : Spelling → Bytes
  | raw => String.utf8EncodeChar char
  | short symbol => [backslash, symbol]
  | unicode digits => backslash :: letter 'u' :: digits
  | pair high low => backslash :: letter 'u' :: high ++ backslash :: letter 'u' :: low

def Fits (char : Char) : Spelling → Prop
  | raw => char ≠ '\x00' ∧ char ≠ '"' ∧ char ≠ '\\'
  | short symbol => (symbol, char) ∈ shortEscapes
  | unicode digits => FourDigits char.toNat digits
  | pair high low =>
    0x10000 ≤ char.toNat ∧ FourDigits (0xd800 + (char.toNat - 0x10000) / 0x400) high ∧
      FourDigits (0xdc00 + (char.toNat - 0x10000) % 0x400) low

def isPair : Spelling → Bool
  | pair _ _ => true
  | _ => false

end Spelling

structure Spelled where
  char : Char
  spelling : Spelling
  fits : spelling.Fits char

namespace Spelled

def text (spelled : Spelled) : Bytes := spelled.spelling.text spelled.char

def read (spelled : Spelled) : Bytes :=
  match spelled.spelling with
  | .pair high low => characterBytes (number 16 high) ++ characterBytes (number 16 low)
  | _ => String.utf8EncodeChar spelled.char

end Spelled

def stringBody (body : List Spelled) : Bytes := body.flatMap Spelled.text

def encoding (chars : List Char) : Bytes := chars.flatMap String.utf8EncodeChar

variable {plain : PlainChar}
variable {char : Char}

theorem raw_bytes {byte : UInt8} (member : byte ∈ String.utf8EncodeChar char) :
    byte = UInt8.ofNat char.toNat ∧ char.toNat < 0x80 ∨ 0x80 ≤ byte := by
  rw [← toUtf8_char, toUtf8] at member
  split at member
  next ascii =>
    left
    exact ⟨mem_singleton.mp member, ascii⟩
  next notAscii =>
    right
    have encodes : byte ∈ String.utf8EncodeChar char := by
      rw [← toUtf8_char, toUtf8, if_neg notAscii]
      exact member
    rcases encoded char with ⟨single, low, shape⟩ | ⟨lead, tail, shape, isLead, continuation, _⟩
    · rw [← toUtf8_char, toUtf8, if_neg notAscii] at shape
      repeat' split at shape
      all_goals simp at shape
    · rw [shape] at encodes
      rcases mem_cons.mp encodes with rfl | inside
      · exact UInt8.le_trans (by decide) isLead
      · exact high_of_continuation (continuation byte inside)

theorem raw_reads (fits : Spelling.raw.Fits char) :
    Unescapes plain (String.utf8EncodeChar char) (String.utf8EncodeChar char) := by
  obtain ⟨nonzero, _, notBackslash⟩ := fits
  apply Unescapes.verbatim
  intro byte member
  rcases raw_bytes member with ⟨same, ascii⟩ | high
  · have number : byte.toNat = char.toNat := by
      rw [same, UInt8.toNat_ofNat', Nat.mod_eq_of_lt (by omega)]
    constructor
    · intro zero
      rw [zero] at number
      exact nonzero (Char.toNat_inj.mp number.symm)
    · intro backslash
      rw [backslash] at number
      exact notBackslash (Char.toNat_inj.mp number.symm)
  · constructor
    · rintro rfl
      exact absurd high (by decide)
    · rintro rfl
      exact absurd high (by decide)

theorem short_reads {symbol : UInt8} (fits : (symbol, char) ∈ shortEscapes) :
    Unescapes plain [backslash, symbol] (String.utf8EncodeChar char) := by
  have known : ∀ known ∈ shortEscapes, known.1 < 0x80 ∧ (characterBytes known.2.toNat).length ≤ 2 ∧
      escaped [known.1] = (known.2.toNat, 1) := by
    decide
  have step : ∀ rest, escaped (symbol :: rest) = (char.toNat, 1) := by
    intro rest
    simp only [shortEscapes, mem_cons, Prod.mk.injEq, not_mem_nil, or_false] at fits
    rcases fits with same | same | same | same | same | same | same | same
    all_goals
      obtain ⟨rfl, rfl⟩ := same
      rfl
  obtain ⟨ascii, short, _⟩ := known _ fits
  rw [← characterBytes_char]
  apply Unescapes.character (by decide)
  · intro rest
    rw [singleton_append, nextCharacterOn_ascii _ ascii, nextCharacter, if_pos ⟨rfl, by simp⟩, step]
    rfl
  · exact short

theorem Spelled.reads (spelled : Spelled) : Unescapes plain spelled.text spelled.read := by
  obtain ⟨char, spelling, fits⟩ := spelled
  cases spelling with
  | raw => exact raw_reads fits
  | short symbol => exact short_reads fits
  | unicode digits =>
    have reads : Unescapes plain _ _ := Unescapes.unicode fits.four fits.hex
    rw [fits.value, characterBytes_char] at reads
    exact reads
  | pair high low =>
    obtain ⟨_, first, second⟩ := fits
    exact (Unescapes.unicode first.four first.hex).append (Unescapes.unicode second.four second.hex)

theorem surrogate_length {number : Nat} (from800 : 0x800 ≤ number) (below : number < 0x10000) :
    (characterBytes number).length = 3 := by
  have three : (toUtf8 number).length = 3 := by
    rw [toUtf8, if_neg (by omega), if_neg (by omega), if_pos below]
    rfl
  have some : toUtf8 number ≠ [] := by
    intro empty
    rw [empty] at three
    cases three
  rw [characterBytes, if_neg some, three]

theorem beyond_length (beyond : 0x10000 ≤ char.toNat) : (String.utf8EncodeChar char).length = 4 := by
  rw [← toUtf8_char, toUtf8, if_neg (by omega), if_neg (by omega), if_neg (by omega), if_pos (char_lt char)]
  rfl

theorem Spelled.read_length (spelled : Spelled) :
    spelled.read.length = (String.utf8EncodeChar spelled.char).length + if spelled.spelling.isPair then 2 else 0 := by
  obtain ⟨char, spelling, fits⟩ := spelled
  cases spelling with
  | raw | short | unicode => rfl
  | pair high low =>
    obtain ⟨beyond, first, second⟩ := fits
    have range := char_lt char
    simp only [Spelled.read, length_append, first.value, second.value, Spelling.isPair, if_true]
    rw [surrogate_length (by omega) (by omega), surrogate_length (by omega) (by omega), beyond_length beyond]

theorem Spelled.read_eq {spelled : Spelled} (single : spelled.spelling.isPair = false) :
    spelled.read = String.utf8EncodeChar spelled.char := by
  obtain ⟨char, spelling, fits⟩ := spelled
  cases spelling with
  | raw | short | unicode => rfl
  | pair => cases single

theorem unescape_body (body : List Spelled) : unescapeStringUtf8On plain (stringBody body) = body.flatMap Spelled.read :=
  (Unescapes.flatMap fun spelled _ => spelled.reads).unescapes

theorem read_length (body : List Spelled) : (body.flatMap Spelled.read).length =
      (encoding (body.map Spelled.char)).length + 2 * body.countP fun spelled => spelled.spelling.isPair := by
  induction body with
  | nil => rfl
  | cons spelled body ih =>
    have first := spelled.read_length
    rw [encoding] at ih
    rw [flatMap_cons, length_append, ih, first, encoding, map_cons, flatMap_cons, length_append, countP_cons]
    cases spelled.spelling.isPair with
    | true =>
      simp only [if_true]
      omega
    | false =>
      simp only [Bool.false_eq_true, if_false]
      omega

/-- A body is read as the characters it spells, in no more bytes than it has, if and only if none of
them is spelled as a surrogate pair: each surrogate becomes a sequence of three bytes. -/
theorem unescape_body_iff (plain : PlainChar) (body : List Spelled) :
    (unescapeStringUtf8On plain (stringBody body) = encoding (body.map Spelled.char) ∧
      (unescapeStringUtf8On plain (stringBody body)).length ≤ (stringBody body).length) ↔
      ∀ spelled ∈ body, spelled.spelling.isPair = false := by
  have reads : Unescapes plain (stringBody body) (body.flatMap Spelled.read) := .flatMap fun spelled _ => spelled.reads
  rw [unescape_body]
  constructor
  · intro meant spelled member
    have length := read_length body
    rw [meant.1] at length
    have none : body.countP (fun spelled => spelled.spelling.isPair) = 0 := by omega
    simpa using countP_eq_zero.mp none spelled member
  · intro single
    have same : body.flatMap Spelled.read = encoding (body.map Spelled.char) := by
      rw [encoding, flatMap_map]
      exact flatMap_congr fun spelled member => Spelled.read_eq (single spelled member)
    exact ⟨same, reads.shorter⟩

/-- `\ud83d\ude00` for U+1F600. -/
theorem surrogates_not_combined :
    ∃ spelled : Spelled, spelled.char = Char.ofNat 0x1f600 ∧ spelled.text = ofString "\\ud83d\\ude00" ∧
      unescapeStringUtf8On .signed (stringBody [spelled]) ≠ encoding [spelled.char] := by
  have fits : (Spelling.pair (ofString "d83d") (ofString "de00")).Fits (Char.ofNat 0x1f600) :=
    ⟨by decide, ⟨by decide, forall_mem_of_all (by decide), by decide⟩,
      ⟨by decide, forall_mem_of_all (by decide), by decide⟩⟩
  have differs : unescapeStringUtf8On .signed (ofString "\\ud83d\\ude00") ≠ encoding [Char.ofNat 0x1f600] := by
    decide
  exact ⟨⟨_, _, fits⟩, rfl, rfl, differs⟩

end FluentBit.Json
