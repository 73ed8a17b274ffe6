import FluentBit.Json.TokeniserProperties
import FluentBit.Json.Unescape
import FluentBit.Json.WriteStrBuilds

/-! Strings in text. Valid UTF-8 is written byte by byte, either as an escape or as it is; the
tokeniser finds the end of what is written, and the escapes are undone. -/

set_option autoImplicit false

namespace FluentBit.Json

open List Nat Ascii UInt8

def ValidUtf8 (text : Bytes) : Prop := ∃ chars : List Char, chars.flatMap String.utf8EncodeChar = text

def escapeByte (byte : UInt8) : Bytes := (jsonEscape byte).getD [byte]

/-! ### Writing -/

variable {number : Nat} {byte : UInt8} {bytes : Bytes} {within : Within}

theorem lead_ofNat (above : 0xc0 ≤ number) (below : number < 256) : 0xc0 ≤ UInt8.ofNat number := by
  rw [le_iff_toNat_le, toNat_ofNat', mod_eq_of_lt below]
  exact above

theorem isContinuation_ofNat : isContinuation (UInt8.ofNat (number % 64 + 128)) = true := by
  simp only [isContinuation, Bool.and_eq_true, decide_eq_true_eq, le_iff_toNat_le, lt_iff_toNat_lt, toNat_ofNat']
  simp
  omega

theorem utf8Len_ofNat (small : number < 256) : utf8Len (UInt8.ofNat number) =
      if number < 0xc0 then 1 else if number < 0xe0 then 2 else if number < 0xf0 then 3
      else if number < 0xf8 then 4 else if number < 0xfc then 5 else 6 := by
  simp only [utf8Len, lt_iff_toNat_lt, toNat_ofNat', mod_eq_of_lt small]
  rfl

theorem encoded (char : Char) : (∃ byte, byte < 0x80 ∧ String.utf8EncodeChar char = [byte]) ∨
      ∃ lead tail, String.utf8EncodeChar char = lead :: tail ∧ 0xc0 ≤ lead ∧
        (∀ other ∈ tail, isContinuation other = true) ∧ tail.length + 1 = utf8Len lead := by
  unfold String.utf8EncodeChar
  generalize char.val.toNat = number
  simp only
  split
  next low =>
    refine .inl ⟨_, ?_, rfl⟩
    rw [lt_iff_toNat_lt, toNat_ofNat', mod_eq_of_lt (by omega)]
    exact lt_succ_of_le low
  · refine .inr ?_
    split
    · refine ⟨_, _, rfl, lead_ofNat (by omega) (by omega), ?_, ?_⟩
      · simp only [forall_mem_cons, isContinuation_ofNat, true_and, not_mem_nil, false_implies, implies_true]
      · rw [utf8Len_ofNat (by omega), if_neg (by omega), if_pos (by omega)]
        rfl
    · split
      · refine ⟨_, _, rfl, lead_ofNat (by omega) (by omega), ?_, ?_⟩
        · simp only [forall_mem_cons, isContinuation_ofNat, true_and, not_mem_nil, false_implies, implies_true]
        · rw [utf8Len_ofNat (by omega), if_neg (by omega), if_neg (by omega), if_pos (by omega)]
          rfl
      · refine ⟨_, _, rfl, lead_ofNat (by omega) (by omega), ?_, ?_⟩
        · simp only [forall_mem_cons, isContinuation_ofNat, true_and, not_mem_nil, false_implies, implies_true]
        · rw [utf8Len_ofNat (by omega), if_neg (by omega), if_neg (by omega), if_neg (by omega), if_pos (by omega)]
          rfl

theorem escapeByte_high (high : 0x80 ≤ byte) : escapeByte byte = [byte] := by
  rw [escapeByte, jsonEscape_lead byte high]
  rfl

theorem high_of_continuation (continuation : isContinuation byte = true) : 0x80 ≤ byte := by
  simp only [isContinuation, Bool.and_eq_true, decide_eq_true_eq] at continuation
  exact continuation.1

theorem flatMap_escapeByte_high (high : ∀ byte ∈ bytes, 0x80 ≤ byte) : bytes.flatMap escapeByte = bytes := by
  induction bytes with
  | nil => rfl
  | cons byte bytes ih =>
    rw [flatMap_cons, escapeByte_high (high byte (mem_cons_self ..)),
      ih fun other member => high other (mem_cons_of_mem _ member)]
    rfl

theorem escapeText_ascii (ascii : byte < 0x80) (rest : Bytes) :
    escapeText (byte :: rest) = escapeByte byte ++ escapeText rest := by
  rw [escapeText_cons, escapeByte, nextStep]
  cases jsonEscape byte with
  | none => simp [ascii]
  | some out => rfl

theorem ValidUtf8.escapeText {text : Bytes} (valid : ValidUtf8 text) : escapeText text = text.flatMap escapeByte := by
  obtain ⟨chars, rfl⟩ := valid
  induction chars with
  | nil => rfl
  | cons char chars ih =>
    rw [flatMap_cons]
    rcases encoded char with ⟨byte, ascii, shape⟩ | ⟨lead, tail, shape, isLead, continuation, complete⟩
    · rw [shape, singleton_append, escapeText_ascii ascii, ih, flatMap_cons]
    · have isPlain : PlainText (lead :: (tail ++ [])) := .sequence isLead continuation complete .nil
      rw [append_nil] at isPlain
      have high : ∀ byte ∈ lead :: tail, 0x80 ≤ byte := by
        intro byte member
        rcases mem_cons.mp member with rfl | member
        · exact UInt8.le_trans (by decide) isLead
        · exact high_of_continuation (continuation byte member)
      rw [shape, isPlain.escapeText, ih, flatMap_append, flatMap_escapeByte_high high]

def scanOver : Within → Bytes → Option Within
  | within, [] => some within
  | within, byte :: rest =>
    match scanByte byte within with
    | .goes next => scanOver next rest
    | _ => none

theorem scanString_over {next : Within} (passed : scanOver within bytes = some next) (rest : Bytes) :
    scanString within (bytes ++ rest) = (scanString next rest).map (· + bytes.length) := by
  induction bytes generalizing within with
  | nil =>
    cases passed
    rw [nil_append]
    cases scanString next rest with
    | error failure => rfl
    | ok length => rfl
  | cons byte bytes ih =>
    rw [scanOver] at passed
    rw [cons_append, scanString]
    cases scanned : scanByte byte within with
    | closes | fails failure => rw [scanned] at passed; cases passed
    | goes middle =>
      rw [scanned] at passed
      simp only
      rw [ih passed]
      cases scanString next rest with
      | error failure => rfl
      | ok length => simp [Except.map, Nat.add_assoc]

def between : Within → Bool
  | .plain => true
  | .digits due => due = 0
  | .escape => false

theorem scanString_between (isBetween : between within = true) (rest : Bytes) :
    scanString within rest = scanString .plain rest := by
  cases within with
  | plain => rfl
  | escape => cases isBetween
  | digits due =>
    obtain rfl : due = 0 := by simpa [between] using isBetween
    cases rest with
    | nil => rfl
    | cons byte rest => rfl

theorem scanOver_escapeByte : ∀ byte : UInt8, (scanOver .plain (escapeByte byte)).any between = true := by
  apply forall_byte
  decide +kernel

/-- The scan of a string ends at its closing quote. -/
theorem scanString_text (text rest : Bytes) :
    scanString .plain (text.flatMap escapeByte ++ quote :: rest) = .ok (text.flatMap escapeByte).length := by
  induction text with
  | nil => rfl
  | cons byte text ih =>
    have passed := scanOver_escapeByte byte
    rw [Option.any_eq_true] at passed
    obtain ⟨within, passed, isBetween⟩ := passed
    rw [flatMap_cons, append_assoc, scanString_over passed, scanString_between isBetween, ih, length_append,
      Nat.add_comm]
    rfl

/-! ### Escapes undone -/

theorem characterBytes_widen : ∀ byte : UInt8, characterBytes (widen byte) = [byte] ∧ (toUtf8 (widen byte)).length ≤ 1 := by
  apply forall_byte
  decide +kernel

theorem hexEscape_digits : ∀ byte : UInt8, byte < 0x80 →
    hexEscape (letter 'u') 4 [zero, zero, hexDigit (byte.toNat / 16), hexDigit (byte.toNat % 16)] =
      (widen byte, 5) := by
  apply forall_byte
  decide +kernel

theorem nextCharacter_unicode (ascii : byte < 0x80) (rest : Bytes) :
    nextCharacter backslash ((unicodeEscape byte).tail ++ rest) = (widen byte, 6) := by
  have digits := hexEscape_digits byte ascii
  have same : hexEscape (letter 'u') 4
      (zero :: zero :: hexDigit (byte.toNat / 16) :: hexDigit (byte.toNat % 16) :: rest) = (widen byte, 5) :=
    digits
  have shape : (unicodeEscape byte).tail ++ rest = letter 'u' :: zero :: zero ::
      hexDigit (byte.toNat / 16) :: hexDigit (byte.toNat % 16) :: rest := rfl
  have step : ∀ more, escaped (letter 'u' :: more) = hexEscape (letter 'u') 4 more := fun more => rfl
  rw [shape, nextCharacter, if_pos ⟨rfl, by simp⟩, step, same]

theorem plain_byte : ∀ byte : UInt8, jsonEscape byte = none → byte ≠ 0 ∧ byte ≠ backslash := by
  apply forall_byte
  decide +kernel

theorem nextCharacter_escapeByte (byte : UInt8) (rest : Bytes) :
    ∃ head tail, escapeByte byte = head :: tail ∧ head ≠ 0 ∧
      nextCharacter head (tail ++ rest) = (widen byte, tail.length + 1) := by
  cases escape : jsonEscape byte with
  | none =>
    obtain ⟨nonzero, notBackslash⟩ := plain_byte byte escape
    refine ⟨byte, [], by rw [escapeByte, escape]; rfl, nonzero, ?_⟩
    rw [nextCharacter, if_neg fun both => notBackslash both.1]
    rfl
  | some out =>
    have shape : escapeByte byte = out := by rw [escapeByte, escape]; rfl
    rw [shape]
    unfold jsonEscape at escape
    repeat' split at escape
    all_goals cases escape
    iterate 7 next symbol =>
        subst symbol
        exact ⟨_, _, rfl, by decide, rfl⟩
    next special =>
      refine ⟨_, _, rfl, by decide, ?_⟩
      apply nextCharacter_unicode
      rcases special with low | rfl
      · exact UInt8.lt_trans low (by decide)
      · decide

theorem unescapeLoop_text (size : Nat) (text : Bytes) {fuel : Nat} (enough : (text.flatMap escapeByte).length ≤ fuel)
    (out : Bytes) (room : out.length + text.length ≤ size) :
    unescapeLoop size fuel out (text.flatMap escapeByte) = out ++ text := by
  induction text generalizing fuel out with
  | nil =>
    rw [append_nil]
    cases fuel with
    | zero => rfl
    | succ fuel => rfl
  | cons byte text ih =>
    obtain ⟨head, tail, shape, nonzero, read⟩ := nextCharacter_escapeByte byte (text.flatMap escapeByte)
    obtain ⟨single, short⟩ := characterBytes_widen byte
    rw [flatMap_cons, shape] at enough ⊢
    simp only [cons_append, length_cons, length_append] at enough room ⊢
    cases fuel with
    | zero => omega
    | succ fuel =>
      have fits : ¬ size - out.length < (toUtf8 (widen byte)).length := by omega
      rw [unescapeLoop]
      simp only [nonzero, if_false, read, fits, single, drop_succ_cons, drop_left]
      rw [ih (by omega) _ (by simp; omega), append_assoc]
      rfl

theorem length_le_escaped (text : Bytes) : text.length ≤ (text.flatMap escapeByte).length := by
  induction text with
  | nil => exact Nat.le_refl _
  | cons byte text ih =>
    obtain ⟨head, tail, shape, _⟩ := nextCharacter_escapeByte byte []
    rw [flatMap_cons, shape]
    simp only [length_cons, length_append]
    omega

theorem unescape_text (text : Bytes) : unescapeStringUtf8 (text.flatMap escapeByte) = text := by
  have room := length_le_escaped text
  exact unescapeLoop_text _ text (Nat.le_refl _) [] (by simpa using room)

end FluentBit.Json
