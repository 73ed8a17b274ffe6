import FluentBit.Foundation.Ascii
import Mathlib.Data.List.Induction
import Mathlib.Data.List.TakeWhile

/-! Escapes in text, after `src/flb_unescape.c`. A plain `char` is signed. -/

set_option autoImplicit false

namespace FluentBit.Json

open Ascii

/-- A `char` as a number of 32 bits. -/
def widen (byte : UInt8) : Nat := if byte < 0x80 then byte.toNat else 0xffffff00 + byte.toNat

/-- `u8_wc_toutf8`: nothing for what is not a code point. -/
def toUtf8 (ch : Nat) : Bytes :=
  if ch < 0x80 then [UInt8.ofNat ch]
  else if ch < 0x800 then [UInt8.ofNat (ch / 2 ^ 6 ||| 0xc0), UInt8.ofNat (ch % 2 ^ 6 ||| 0x80)]
  else if ch < 0x10000 then
    [UInt8.ofNat (ch / 2 ^ 12 ||| 0xe0), UInt8.ofNat (ch / 2 ^ 6 % 2 ^ 6 ||| 0x80), UInt8.ofNat (ch % 2 ^ 6 ||| 0x80)]
  else if ch < 0x110000 then
    [UInt8.ofNat (ch / 2 ^ 18 ||| 0xf0), UInt8.ofNat (ch / 2 ^ 12 % 2 ^ 6 ||| 0x80),
      UInt8.ofNat (ch / 2 ^ 6 % 2 ^ 6 ||| 0x80), UInt8.ofNat (ch % 2 ^ 6 ||| 0x80)]
  else []

/-- The digits of an escape: the first ones, at most `limit` of them. -/
def escapeDigits (accepted : UInt8 → Bool) (limit : Nat) (text : Bytes) : Bytes :=
  (text.take limit).takeWhile accepted

def hexEscape (letter : UInt8) (limit : Nat) (text : Bytes) : Nat × Nat :=
  let digits := escapeDigits isHex limit text
  if digits = [] then (widen letter, 1) else (number 16 digits % 2 ^ 32, digits.length + 1)

/-- `u8_read_escape_sequence`: the character, and how many bytes it takes. -/
def readEscapeSequence : Bytes → Nat × Nat
  | [] => (0, 0)
  | symbol :: rest =>
    if symbol = letter 'n' then (0x0a, 1)
    else if symbol = letter 't' then (0x09, 1)
    else if symbol = letter 'r' then (0x0d, 1)
    else if symbol = letter 'b' then (0x08, 1)
    else if symbol = letter 'f' then (0x0c, 1)
    else if symbol = letter 'v' then (0x0b, 1)
    else if symbol = letter 'a' then (0x07, 1)
    else if isOctal symbol then
      let digits := escapeDigits isOctal 3 (symbol :: rest)
      (number 8 digits, digits.length)
    else if symbol = letter 'x' then hexEscape symbol 2 rest
    else if symbol = letter 'u' then hexEscape symbol 4 rest
    else if symbol = letter 'U' then hexEscape symbol 8 rest
    else (widen symbol, 1)

def escaped : Bytes → Nat × Nat
  | [] => (0, 0)
  | symbol :: rest =>
    if symbol = quote then (0x22, 1)
    else if symbol = letter '\'' then (0x27, 1)
    else if symbol = backslash then (0x5c, 1)
    else if symbol = letter '/' then (0x2f, 1)
    else if symbol = letter 'n' then (0x0a, 1)
    else if symbol = letter 'b' then (0x08, 1)
    else if symbol = letter 't' then (0x09, 1)
    else if symbol = letter 'f' then (0x0c, 1)
    else if symbol = letter 'r' then (0x0d, 1)
    else readEscapeSequence (symbol :: rest)

def nextCharacter (byte : UInt8) (rest : Bytes) : Nat × Nat :=
  if byte = backslash ∧ rest ≠ [] then
    let (ch, used) := escaped rest
    (ch, used + 1)
  else (widen byte, 1)

def characterBytes (ch : Nat) : Bytes := if toUtf8 ch = [] then [UInt8.ofNat ch] else toUtf8 ch

/-- The loop of `flb_unescape_string_utf8`, at most once for each byte; it stops at a zero byte
and where the output would get longer than the input. -/
def unescapeLoop (size : Nat) : Nat → Bytes → Bytes → Bytes
  | 0, out, _ => out
  | _ + 1, out, [] => out
  | fuel + 1, out, byte :: rest =>
    if byte = 0 then out
    else
      let (ch, used) := nextCharacter byte rest
      if size - out.length < (toUtf8 ch).length then out
      else unescapeLoop size fuel (out ++ characterBytes ch) ((byte :: rest).drop used)

def unescapeStringUtf8 (text : Bytes) : Bytes := unescapeLoop text.length text.length [] text

/-! The unescaper on every platform. Whether a plain `char` is signed shows behind a backslash only:
elsewhere `flb_unescape_string_utf8` converts to a signed one. -/

open List Nat

/-- What a plain `char` is. -/
inductive PlainChar where
  | signed
  | unsigned
deriving DecidableEq

/-- The next character of a text, and how many bytes it takes. `u8_read_escape_sequence` takes a
byte that is no ASCII character for itself. -/
def nextCharacterOn : PlainChar → UInt8 → Bytes → Nat × Nat
  | .unsigned, byte, symbol :: rest =>
    if byte = backslash ∧ 0x80 ≤ symbol then (symbol.toNat, 2) else nextCharacter byte (symbol :: rest)
  | .unsigned, byte, [] => nextCharacter byte []
  | .signed, byte, rest => nextCharacter byte rest

/-- The loop of `flb_unescape_string_utf8`. -/
def unescapeLoopOn (plain : PlainChar) (size : Nat) : Nat → Bytes → Bytes → Bytes
  | 0, out, _ => out
  | _ + 1, out, [] => out
  | fuel + 1, out, byte :: rest =>
    if byte = 0 then out
    else
      let (ch, used) := nextCharacterOn plain byte rest
      if size - out.length < (toUtf8 ch).length then out
      else unescapeLoopOn plain size fuel (out ++ characterBytes ch) ((byte :: rest).drop used)

/-- `flb_unescape_string_utf8` -/
def unescapeStringUtf8On (plain : PlainChar) (text : Bytes) : Bytes :=
  unescapeLoopOn plain text.length text.length [] text

variable {plain : PlainChar} {text bytes : Bytes}

theorem unescapeLoopOn_signed (size fuel : Nat) (out text : Bytes) :
    unescapeLoopOn .signed size fuel out text = unescapeLoop size fuel out text := by
  induction fuel generalizing out text with
  | zero => rfl
  | succ fuel ih =>
    cases text with
    | nil => rfl
    | cons byte rest =>
      simp [unescapeLoopOn, unescapeLoop, nextCharacterOn, ih]

theorem unescapeStringUtf8On_signed : unescapeStringUtf8On .signed text = unescapeStringUtf8 text :=
  unescapeLoopOn_signed text.length text.length [] text

theorem nextCharacterOn_ascii {byte symbol : UInt8} (rest : Bytes) (ascii : symbol < 0x80) :
    nextCharacterOn plain byte (symbol :: rest) = nextCharacter byte (symbol :: rest) := by
  cases plain with
  | signed => rfl
  | unsigned => exact if_neg fun both => UInt8.not_le.mpr ascii both.2

theorem nextCharacterOn_plain {byte : UInt8} (notBackslash : byte ≠ backslash) (rest : Bytes) :
    nextCharacterOn plain byte rest = (widen byte, 1) := by
  have same : nextCharacter byte rest = (widen byte, 1) := if_neg fun both => notBackslash both.1
  cases plain with
  | signed => exact same
  | unsigned =>
    cases rest with
    | nil => exact same
    | cons symbol rest =>
      have other : ¬ (byte = backslash ∧ 0x80 ≤ symbol) := fun both => notBackslash both.1
      exact (if_neg other).trans same

/-! ### Texts that are read in one go -/

structure Unescapes (plain : PlainChar) (text bytes : Bytes) : Prop where
  shorter : bytes.length ≤ text.length
  goes : ∀ (size fuel : Nat) (out rest : Bytes), text.length + rest.length ≤ fuel →
    out.length + text.length + rest.length ≤ size →
    ∃ left, rest.length ≤ left ∧
      unescapeLoopOn plain size fuel out (text ++ rest) = unescapeLoopOn plain size left (out ++ bytes) rest

theorem Unescapes.nil : Unescapes plain [] [] where
  shorter := Nat.le_refl _
  goes := by
    intro size fuel out rest enough room
    refine ⟨fuel, by simpa using enough, ?_⟩
    rw [nil_append, append_nil]

theorem Unescapes.append {more moreBytes : Bytes} (first : Unescapes plain text bytes) (second : Unescapes plain more moreBytes) :
    Unescapes plain (text ++ more) (bytes ++ moreBytes) where
  shorter := by
    have firstShorter := first.shorter
    have secondShorter := second.shorter
    simp only [length_append]
    omega
  goes := by
    intro size fuel out rest enough room
    have firstShorter := first.shorter
    simp only [length_append] at enough room
    obtain ⟨middle, left, same⟩ := first.goes size fuel out (more ++ rest) (by simp; omega) (by simp; omega)
    simp only [length_append] at left
    obtain ⟨final, finalLeft, finalSame⟩ := second.goes size middle (out ++ bytes) rest (by omega) (by simp; omega)
    refine ⟨final, finalLeft, ?_⟩
    rw [append_assoc, same, finalSame, append_assoc]

theorem Unescapes.flatMap {Item : Type} {items : List Item} {spelled read : Item → Bytes}
    (each : ∀ item ∈ items, Unescapes plain (spelled item) (read item)) :
    Unescapes plain (items.flatMap spelled) (items.flatMap read) := by
  induction items with
  | nil => exact .nil
  | cons item items ih =>
    rw [flatMap_cons, flatMap_cons]
    exact (each item (mem_cons_self ..)).append (ih fun other member => each other (mem_cons_of_mem _ member))

theorem toUtf8_le_characterBytes (ch : Nat) : (toUtf8 ch).length ≤ (characterBytes ch).length := by
  unfold characterBytes
  split
  next nothing => simp [nothing]
  · exact Nat.le_refl _

/-- An escape of one character gives its bytes. -/
theorem Unescapes.character {byte : UInt8} {others : Bytes} {ch : Nat} (nonzero : byte ≠ 0)
    (next : ∀ rest, nextCharacterOn plain byte (others ++ rest) = (ch, others.length + 1))
    (short : (characterBytes ch).length ≤ others.length + 1) : Unescapes plain (byte :: others) (characterBytes ch) where
  shorter := short
  goes := by
    intro size fuel out rest enough room
    have small := toUtf8_le_characterBytes ch
    rw [length_cons] at enough room
    cases fuel with
    | zero => omega
    | succ fuel =>
      refine ⟨fuel, by omega, ?_⟩
      have fits : ¬ size - out.length < (toUtf8 ch).length := by omega
      rw [cons_append, unescapeLoopOn, if_neg nonzero, next rest]
      simp [fits]

theorem Unescapes.byte {byte : UInt8} (nonzero : byte ≠ 0) (notBackslash : byte ≠ backslash) :
    Unescapes plain [byte] [byte] := by
  have own : ∀ byte : UInt8, characterBytes (widen byte) = [byte] := by
    apply forall_byte
    decide +kernel
  have reads : Unescapes plain [byte] (characterBytes (widen byte)) :=
    .character nonzero (fun rest => nextCharacterOn_plain notBackslash rest) (by rw [own]; exact Nat.le_refl _)
  rwa [own] at reads

theorem Unescapes.verbatim (each : ∀ byte ∈ text, byte ≠ 0 ∧ byte ≠ backslash) : Unescapes plain text text := by
  induction text with
  | nil => exact .nil
  | cons byte text ih =>
    obtain ⟨nonzero, notBackslash⟩ := each byte (mem_cons_self ..)
    exact (Unescapes.byte nonzero notBackslash).append (ih fun other member => each other (mem_cons_of_mem _ member))

theorem Unescapes.unescapes (reads : Unescapes plain text bytes) : unescapeStringUtf8On plain text = bytes := by
  obtain ⟨left, _, same⟩ := reads.goes text.length text.length [] [] (by simp) (by simp)
  rw [append_nil, nil_append] at same
  rw [unescapeStringUtf8On, same]
  cases left with
  | zero => rfl
  | succ left => rfl

theorem or_mark {number mark bits : Nat} (low : number < 2 ^ bits) (high : mark % 2 ^ bits = 0) :
    number ||| mark = number + mark := by
  obtain ⟨multiple, rfl⟩ := dvd_of_mod_eq_zero high
  rw [Nat.or_comm, ← two_pow_add_eq_or_of_lt low, Nat.add_comm]

theorem or_continuation (number : Nat) : number % 2 ^ 6 ||| 0x80 = number % 64 + 0x80 :=
  @or_mark (number % 2 ^ 6) 0x80 6 (mod_lt _ (by decide)) rfl

theorem char_lt (char : Char) : char.toNat < 0x110000 := by
  cases char.valid with
  | inl low =>
    have bound : char.toNat < 0xd800 := low
    omega
  | inr high => exact high.2

theorem toUtf8_char (char : Char) : toUtf8 char.toNat = String.utf8EncodeChar char := by
  have range := char_lt char
  have value : char.val.toNat = char.toNat := rfl
  unfold toUtf8 String.utf8EncodeChar
  rw [value]
  generalize char.toNat = number at range
  have six : number / 2 ^ 6 = number / 64 := rfl
  have twelve : number / 2 ^ 12 = number / 4096 := rfl
  simp only [or_continuation]
  by_cases one : number < 0x80
  · rw [if_pos one, if_pos (le_of_lt_succ one)]
  · rw [if_neg one, if_neg (fun low => one (lt_succ_of_le low))]
    by_cases two : number < 0x800
    · have lead : number / 2 ^ 6 ||| 0xc0 = number / 64 % 0x20 + 0xc0 := by
        rw [@or_mark _ _ 6 (by omega) rfl]
        omega
      rw [if_pos two, if_pos (le_of_lt_succ two), lead]
    · rw [if_neg two, if_neg (fun low => two (lt_succ_of_le low))]
      by_cases three : number < 0x10000
      · have lead : number / 2 ^ 12 ||| 0xe0 = number / 4096 % 0x10 + 0xe0 := by
          rw [@or_mark _ _ 5 (by omega) rfl]
          omega
        rw [if_pos three, if_pos (le_of_lt_succ three), lead, six]
      · have lead : number / 2 ^ 18 ||| 0xf0 = number / 262144 % 0x08 + 0xf0 := by
          rw [@or_mark _ _ 4 (by omega) rfl]
          omega
        rw [if_neg three, if_neg (fun low => three (lt_succ_of_le low)), if_pos range, lead, six, twelve]

theorem characterBytes_char (char : Char) : characterBytes char.toNat = String.utf8EncodeChar char := by
  rw [characterBytes, toUtf8_char, if_neg String.utf8EncodeChar_ne_nil]

theorem nextCharacterOn_hex {digits : Bytes} (four : digits.length = 4) (hex : ∀ digit ∈ digits, isHex digit = true)
    (rest : Bytes) :
    nextCharacterOn plain backslash (letter 'u' :: digits ++ rest) = (number 16 digits % 2 ^ 32, 6) := by
  have taken : escapeDigits isHex 4 (digits ++ rest) = digits := by
    rw [escapeDigits, take_append_of_le_length (by omega), take_of_length_le (by omega)]
    exact takeWhile_eq_self_iff.mpr hex
  have some : digits ≠ [] := by
    intro empty
    rw [empty] at four
    cases four
  have letter : escaped (letter 'u' :: (digits ++ rest)) = hexEscape (letter 'u') 4 (digits ++ rest) := rfl
  rw [cons_append, nextCharacterOn_ascii _ (by decide), nextCharacter, if_pos ⟨rfl, by simp⟩, letter, hexEscape, taken]
  simp [some, four]

theorem number_lt {digits : Bytes} (hex : ∀ digit ∈ digits, isHex digit = true) :
    number 16 digits < 16 ^ digits.length := by
  have value : ∀ digit : UInt8, isHex digit = true → digitValue digit < 16 := by
    apply forall_byte
    decide +kernel
  induction digits using List.reverseRecOn with
  | nil => decide
  | append_singleton digits digit ih =>
    have before := ih fun other member => hex other (by simp [member])
    have last := value digit (hex digit (by simp))
    rw [number, foldl_concat, length_append, length_singleton, Nat.pow_succ]
    rw [number] at before
    omega

theorem characterBytes_length (ch : Nat) : 1 ≤ (characterBytes ch).length ∧ (characterBytes ch).length ≤ 4 := by
  unfold characterBytes
  split
  · simp
  next some =>
    unfold toUtf8 at some ⊢
    repeat' split
    all_goals simp_all

theorem Unescapes.unicode {digits : Bytes} (four : digits.length = 4) (hex : ∀ digit ∈ digits, isHex digit = true) :
    Unescapes plain (backslash :: letter 'u' :: digits) (characterBytes (number 16 digits)) := by
  have small : number 16 digits % 2 ^ 32 = number 16 digits := by
    have bound := number_lt hex
    rw [four] at bound
    omega
  have length := (characterBytes_length (number 16 digits)).2
  apply Unescapes.character (by decide)
  · intro rest
    rw [nextCharacterOn_hex four hex, small, length_cons, four]
  · rw [length_cons, four]
    omega

end FluentBit.Json
