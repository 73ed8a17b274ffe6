import FluentBit.Json.PlatformRoundTrip
import FluentBit.Strings.Sds

/-! Texts as bodies of JSON strings, after `flb_sds_cat_utf8` in `src/flb_sds.c`. -/

set_option autoImplicit false

namespace FluentBit.Strings.Sds

open List Nat Ascii UInt8
open Json

/-- The letter behind a backslash, for the bytes from `\b` to `\r`. -/
def controlLetter (c : UInt8) : Bytes :=
  if c = 0x0a then [letter 'n']
  else if c = 0x09 then [letter 't']
  else if c = 0x08 then [letter 'b']
  else if c = 0x0c then [letter 'f']
  else if c = 0x0d then [letter 'r']
  else [letter 'u', zero, zero, zero, letter 'b']

def highDigit (value : Nat) : Bytes := if 0 < value then [hexDigit value] else []

def nextPiece (c : UInt8) (rest : Bytes) : Option (Bytes × Nat) :=
  if c = backslash ∨ c = quote then some ([backslash, c], 1)
  else if 0x08 ≤ c ∧ c ≤ 0x0d then some (backslash :: controlLetter c, 1)
  else if c < 0x20 ∨ c = 0x7f then some (unicodeEscape c, 1)
  else if 0x80 ≤ c then
    let hexBytes := utf8Len c
    let (state, cp) := decodeSequence ((c :: rest).take hexBytes) utf8Accept 0
    if state ≠ utf8Accept then none
    else
      let high := if 0xffff < cp then highDigit (cp / 0x100000 % 16) ++ highDigit (cp / 0x10000 % 16) else []
      some (backslash :: letter 'u' :: (high ++ lastDigits 4 cp), hexBytes)
  else some ([c], 1)

/-- The loop over the characters, at most `fuel` of them. -/
def utf8Loop (junk : UInt8) : Nat → Sds → Bytes → Sds
  | 0, s, _ => s
  | _ + 1, s, [] => s
  | fuel + 1, s, c :: rest =>
    match nextPiece c rest with
    | none => reserve junk s 8
    | some (piece, used) => utf8Loop junk fuel (emit junk s piece) ((c :: rest).drop used)

def catUtf8 (junk : UInt8) (s : Sds) (str : Bytes) : Sds :=
  let s := if s.avail ≤ str.length then increase junk s str.length else s
  terminate (utf8Loop junk str.length s str)

def piece (char : Char) : Bytes :=
  if char.toNat < 0x80 then escapeByte (UInt8.ofNat char.toNat)
  else
    backslash :: letter 'u' ::
      ((if 0xffff < char.toNat then highDigit (char.toNat / 0x100000 % 16) ++ highDigit (char.toNat / 0x10000 % 16)
        else []) ++ lastDigits 4 char.toNat)

theorem nextPiece_ascii {c : UInt8} (ascii : c < 0x80) (rest : Bytes) : nextPiece c rest = some (escapeByte c, 1) := by
  have table : ∀ c : UInt8, c < 0x80 → nextPiece c [] = some (escapeByte c, 1) := by
    apply forall_byte
    decide +kernel
  rw [← table c ascii]
  simp [nextPiece, UInt8.not_le.mpr ascii]

theorem nextPiece_char (char : Char) : ∃ lead tail, String.utf8EncodeChar char = lead :: tail ∧
      ∀ rest, nextPiece lead (tail ++ rest) = some (piece char, tail.length + 1) := by
  cases Nat.lt_or_ge char.toNat 0x80 with
  | inl narrow =>
    refine ⟨UInt8.ofNat char.toNat, [], ?_, ?_⟩
    · rw [← toUtf8_char, toUtf8, if_pos narrow]
    · intro rest
      have ascii : UInt8.ofNat char.toNat < 0x80 := by
        rw [lt_iff_toNat_lt, toNat_ofNat', mod_eq_of_lt (by omega)]
        exact narrow
      rw [nil_append, nextPiece_ascii ascii, piece, if_pos narrow]
      rfl
  | inr wide =>
    have decoded := decodeSequence_char wide
    cases encoded char with
    | inl single =>
      obtain ⟨byte, ascii, shape⟩ := single
      cases raw_bytes (show byte ∈ String.utf8EncodeChar char by simp [shape]) with
      | inl low => exact absurd low.2 (Nat.not_lt.mpr wide)
      | inr high => exact absurd ascii (UInt8.not_lt.mpr high)
    | inr sequence =>
      obtain ⟨lead, tail, shape, isLead, _, complete⟩ := sequence
      refine ⟨lead, tail, shape, ?_⟩
      intro rest
      have taken : (lead :: (tail ++ rest)).take (utf8Len lead) = lead :: tail := by
        rw [← complete, take_succ_cons, take_left]
      have late : ∀ lead : UInt8, 0xc0 ≤ lead → ¬ (lead = backslash ∨ lead = quote) ∧
          ¬ (0x08 ≤ lead ∧ lead ≤ 0x0d) ∧ ¬ (lead < 0x20 ∨ lead = 0x7f) ∧ 0x80 ≤ lead := by
        apply forall_byte
        decide +kernel
      obtain ⟨notQuoted, notShort, notControl, high⟩ := late lead isLead
      rw [shape] at decoded
      simp only [nextPiece, notQuoted, notShort, notControl, high, if_false, if_true, taken, decoded, ne_eq,
        not_true_eq_false]
      rw [piece, if_neg (Nat.not_lt.mpr wide), complete]

theorem length_piece (char : Char) : (piece char).length ≤ 8 := by
  unfold piece
  split
  next narrow =>
    have table : ∀ c : UInt8, (escapeByte c).length ≤ 8 := by
      apply forall_byte
      decide +kernel
    exact table _
  · have digit (value : Nat) : (highDigit value).length ≤ 1 := by
      unfold highDigit
      split <;> simp
    have first := digit (char.toNat / 0x100000 % 16)
    have second := digit (char.toNat / 0x10000 % 16)
    simp only [length_cons, length_append, lastDigits_length]
    split
    · rw [length_append]
      omega
    · simp

theorem utf8Loop_encoding (junk : UInt8) (chars : List Char) {fuel : Nat} (enough : (encoding chars).length ≤ fuel) (s : Sds) :
    utf8Loop junk fuel s (encoding chars) = chars.foldl (fun s char => emit junk s (piece char)) s := by
  induction chars generalizing fuel s with
  | nil => cases fuel <;> rfl
  | cons char chars ih =>
    obtain ⟨lead, tail, shape, step⟩ := nextPiece_char char
    rw [encoding_cons, shape, cons_append] at enough ⊢
    cases fuel with
    | zero => simp at enough
    | succ fuel =>
      have next : (lead :: (tail ++ encoding chars)).drop (tail.length + 1) = encoding chars := by simp
      rw [utf8Loop, step]
      simp only [next, foldl_cons]
      apply ih
      simp only [length_cons, length_append] at enough
      omega

theorem Holds.catUtf8 (junk : UInt8) {s : Sds} {text : Bytes} (holds : Holds s text) (chars : List Char) :
    Holds (catUtf8 junk s (encoding chars)) (text ++ chars.flatMap piece) := by
  simp only [Sds.catUtf8, utf8Loop_encoding junk chars (Nat.le_refl _)]
  split
  · obtain ⟨written, fits⟩ := (holds.starts.increase junk _).pieces junk piece length_piece chars
      (holds.inside.trans (Nat.le_add_right _ _))
    exact written.terminate fits
  · obtain ⟨written, fits⟩ := holds.starts.pieces junk piece length_piece chars holds.inside
    exact written.terminate fits

/-! ### What the pieces denote -/

def Denotes (text : Bytes) (chars : List Char) : Prop :=
  ∃ body : List Spelled, stringBody body = text ∧ body.map Spelled.char = chars ∧
    ∀ spelled ∈ body, spelled.spelling = .raw → 0x20 ≤ spelled.char.toNat

variable {char : Char} {rest more : Bytes}

theorem spelled_ascii (narrow : char.toNat < 0x80) :
    ∃ spelling : Spelling, spelling.Fits char ∧ spelling.text char = piece char ∧
      (spelling = .raw → 0x20 ≤ char.toNat) := by
  have number : (UInt8.ofNat char.toNat).toNat = char.toNat := by
    rw [toNat_ofNat', mod_eq_of_lt (by omega)]
  have is (letter : Char) (small : letter.toNat < 0x80) (same : UInt8.ofNat char.toNat = UInt8.ofNat letter.toNat) :
      char = letter := by
    have numbers := congrArg UInt8.toNat same
    rw [number, toNat_ofNat', mod_eq_of_lt (by omega)] at numbers
    exact Char.toNat_inj.mp numbers
  have short (symbol : UInt8) (letter : Char) (known : (symbol, letter) ∈ shortEscapes) (small : letter.toNat < 0x80)
      (same : UInt8.ofNat char.toNat = UInt8.ofNat letter.toNat) : (Spelling.short symbol).Fits char := by
    rw [is letter small same]
    exact known
  rw [piece, if_pos narrow, escapeByte, jsonEscape]
  split
  next same => exact ⟨.short quote, short _ '"' (by decide) (by decide) same, rfl, by simp⟩
  split
  next same => exact ⟨.short backslash, short _ '\\' (by decide) (by decide) same, rfl, by simp⟩
  split
  next same => exact ⟨.short (letter 'n'), short _ '\n' (by decide) (by decide) same, rfl, by simp⟩
  split
  next same => exact ⟨.short (letter 'r'), short _ '\r' (by decide) (by decide) same, rfl, by simp⟩
  split
  next same => exact ⟨.short (letter 't'), short _ '\t' (by decide) (by decide) same, rfl, by simp⟩
  split
  next same => exact ⟨.short (letter 'b'), short _ '\x08' (by decide) (by decide) same, rfl, by simp⟩
  split
  next same => exact ⟨.short (letter 'f'), short _ '\x0c' (by decide) (by decide) same, rfl, by simp⟩
  split
  · have first : char.toNat / 16 / 16 / 16 % 16 = 0 := by omega
    have second : char.toNat / 16 / 16 % 16 = 0 := by omega
    have third : char.toNat / 16 % 16 = char.toNat / 16 := by omega
    refine ⟨.unicode (lastDigits 4 char.toNat), fourDigits_lastDigits (by omega), ?_, by simp⟩
    simp only [Spelling.text, lastDigits, first, second, third, nil_append, cons_append, Option.getD_some,
      unicodeEscape, number]
    rfl
  next notQuote notBackslash _ _ _ _ _ notControl =>
    have visible : 0x20 ≤ char.toNat := by
      apply Nat.le_of_not_lt
      intro control
      refine notControl (.inl ?_)
      rw [lt_iff_toNat_lt, number]
      exact control
    refine ⟨.raw, ⟨?_, ?_, ?_⟩, ?_, fun _ => visible⟩
    · rintro rfl
      exact absurd visible (by decide)
    · rintro rfl
      exact notQuote rfl
    · rintro rfl
      exact notBackslash rfl
    · rw [Spelling.text, ← toUtf8_char, toUtf8, if_pos narrow]
      rfl

theorem spelled_wide (wide : 0x80 ≤ char.toNat) (short : char.toNat < 0x10000) :
    (Spelling.unicode (lastDigits 4 char.toNat)).Fits char ∧
      (Spelling.unicode (lastDigits 4 char.toNat)).text char = piece char := by
  refine ⟨fourDigits_lastDigits short, ?_⟩
  rw [piece, if_neg (Nat.not_lt.mpr wide), if_neg (by omega)]
  rfl

theorem exists_spelled (short : char.toNat < 0x10000) :
    ∃ spelled : Spelled, spelled.char = char ∧ spelled.text = piece char ∧
      (spelled.spelling = .raw → 0x20 ≤ spelled.char.toNat) := by
  cases Nat.lt_or_ge char.toNat 0x80 with
  | inl narrow =>
    obtain ⟨spelling, fits, text, visible⟩ := spelled_ascii narrow
    exact ⟨⟨char, spelling, fits⟩, rfl, text, visible⟩
  | inr wide =>
    obtain ⟨fits, text⟩ := spelled_wide wide short
    exact ⟨⟨char, _, fits⟩, rfl, text, by simp⟩

inductive Headed (char : Char) : Spelling → Prop where
  | raw {first : UInt8} {rest : Bytes} (shape : String.utf8EncodeChar char = first :: rest)
      (plain : first ≠ backslash) : Headed char .raw
  | short {symbol : UInt8} (ascii : char.toNat < 0x80) (apart : symbol ≠ letter 'u') : Headed char (.short symbol)
  | unicode {digits : Bytes} (short : char.toNat < 0x10000) (four : digits.length = 4) : Headed char (.unicode digits)
  | pair {high low : Bytes} (wide : 0x10000 ≤ char.toNat) (four : high.length = 4) : Headed char (.pair high low)

theorem Spelled.headed (spelled : Spelled) : Headed spelled.char spelled.spelling := by
  obtain ⟨char, spelling, fits⟩ := spelled
  cases spelling with
  | raw =>
    obtain ⟨lead, tail, shape, _⟩ := nextPiece_char char
    refine .raw shape ?_
    rintro rfl
    cases raw_bytes (show backslash ∈ String.utf8EncodeChar char by simp [shape]) with
    | inl low =>
      have numbers := congrArg UInt8.toNat low.1
      rw [toNat_ofNat', mod_eq_of_lt (by omega)] at numbers
      exact fits.2.2 (Char.toNat_inj.mp numbers.symm)
    | inr high => exact absurd high (by decide)
  | short symbol =>
    have known : ∀ known ∈ shortEscapes, known.2.toNat < 0x80 ∧ known.1 ≠ letter 'u' := by decide
    exact .short (known _ fits).1 (known _ fits).2
  | unicode digits =>
    refine .unicode ?_ fits.four
    have bound := number_lt fits.hex
    rwa [fits.value, fits.four] at bound
  | pair high low => exact .pair fits.1 fits.2.1.four

theorem spelled_unique {first second : Spelled} (same : first.char = second.char) (short : first.char.toNat < 0x10000)
    (equal : first.text ++ rest = second.text ++ more) : first.text = second.text := by
  have firstHead := Spelled.headed first
  have secondHead := Spelled.headed second
  rw [same] at firstHead short
  obtain ⟨char, spelling, fits⟩ := first
  obtain ⟨other, otherSpelling, otherFits⟩ := second
  cases same
  simp only [Spelled.text] at equal ⊢
  have cut (lengths : (spelling.text char).length = (otherSpelling.text char).length) :
      spelling.text char = otherSpelling.text char := (append_inj equal lengths).1
  cases firstHead with
  | raw shape plain =>
    cases secondHead with
    | raw => rfl
    | short | unicode | pair =>
      simp only [Spelling.text, shape, cons_append, List.cons.injEq] at equal
      exact absurd equal.1 plain
  | short ascii apart =>
    cases secondHead with
    | raw shape plain =>
      simp only [Spelling.text, shape, cons_append, List.cons.injEq] at equal
      exact absurd equal.1.symm plain
    | short => exact cut rfl
    | unicode | pair =>
      simp only [Spelling.text, cons_append, List.cons.injEq] at equal
      exact absurd equal.2.1 apart
  | unicode _ four =>
    cases secondHead with
    | raw shape plain =>
      simp only [Spelling.text, shape, cons_append, List.cons.injEq] at equal
      exact absurd equal.1.symm plain
    | short _ apart =>
      simp only [Spelling.text, cons_append, List.cons.injEq] at equal
      exact absurd equal.2.1.symm apart
    | unicode _ otherFour => exact cut (by simp [Spelling.text, four, otherFour])
    | pair wide => exact absurd short (Nat.not_lt.mpr wide)
  | pair wide => exact absurd short (Nat.not_lt.mpr wide)

theorem piece_wide (wide : 0x10000 ≤ char.toNat) : ∃ four digit, four.length = 4 ∧ digit ≠ backslash ∧
      piece char = backslash :: letter 'u' :: (four ++ [digit]) := by
  have range := char_lt char
  have high : (highDigit (char.toNat / 0x100000 % 16) ++ highDigit (char.toNat / 0x10000 % 16)).length = 1 := by
    unfold highDigit
    cases Nat.lt_or_ge char.toNat 0x100000 with
    | inl five =>
      rw [if_neg (by omega), if_pos (by omega)]
      rfl
    | inr six =>
      rw [if_pos (by omega), if_neg (by omega)]
      rfl
  refine ⟨highDigit (char.toNat / 0x100000 % 16) ++ highDigit (char.toNat / 0x10000 % 16) ++
    lastDigits 3 (char.toNat / 16), hexDigit (char.toNat % 16), ?_,
    (hexDigit_spec _ (mod_lt _ (by decide))).2.2.2.2, ?_⟩
  · rw [length_append, high, lastDigits_length]
  · simp [piece, if_neg (show ¬ char.toNat < 0x80 by omega), if_pos (show 0xffff < char.toNat by omega), lastDigits]

theorem wide_not_spelled {spelled : Spelled} (wide : 0x10000 ≤ spelled.char.toNat) :
    spelled.text ++ rest ≠ piece spelled.char ++ more := by
  obtain ⟨four, digit, length, plainDigit, shape⟩ := piece_wide wide
  have head := Spelled.headed spelled
  obtain ⟨char, spelling, fits⟩ := spelled
  simp only [shape, Spelled.text]
  intro equal
  cases head with
  | raw shape plain =>
    simp only [Spelling.text, shape, cons_append, List.cons.injEq] at equal
    exact absurd equal.1 plain
  | short ascii => exact absurd ascii (by omega)
  | unicode short => exact absurd short (Nat.not_lt.mpr wide)
  | pair _ high =>
    simp only [Spelling.text, cons_append, append_assoc, List.cons.injEq, true_and] at equal
    have behind := (append_inj equal (high.trans length.symm)).2
    exact plainDigit (List.cons.inj behind).1.symm

theorem denotes_iff (chars : List Char) :
    Denotes (chars.flatMap piece) chars ↔ ∀ char ∈ chars, char.toNat < 0x10000 := by
  induction chars with
  | nil => exact ⟨fun _ => by simp, fun _ => ⟨[], rfl, rfl, by simp⟩⟩
  | cons char chars ih =>
    constructor
    · rintro ⟨body, text, named, visible⟩
      cases body with
      | nil => cases named
      | cons spelled body =>
        obtain ⟨rfl, later⟩ := List.cons.inj named
        rw [stringBody, flatMap_cons, flatMap_cons] at text
        have short : spelled.char.toNat < 0x10000 := by
          apply Nat.lt_of_not_le
          intro wide
          exact wide_not_spelled wide text
        obtain ⟨again, same, written, _⟩ := exists_spelled short
        have equal : spelled.text = piece spelled.char := by
          rw [← written]
          exact spelled_unique same.symm short (by rw [written]; exact text)
        rw [equal] at text
        have behind : Denotes (chars.flatMap piece) chars :=
          ⟨body, append_cancel_left text, later, fun other member => visible other (mem_cons_of_mem _ member)⟩
        intro other member
        cases mem_cons.mp member with
        | inl here => exact here ▸ short
        | inr inside => exact ih.mp behind other inside
    · intro short
      obtain ⟨body, text, named, visible⟩ := ih.mpr fun other member => short other (mem_cons_of_mem _ member)
      obtain ⟨spelled, same, written, shown⟩ := exists_spelled (short char (mem_cons_self ..))
      refine ⟨spelled :: body, ?_, by rw [map_cons, same, named], ?_⟩
      · rw [flatMap_cons, ← text, ← written]
        rfl
      · intro other member
        cases mem_cons.mp member with
        | inl here => exact here ▸ shown
        | inr inside => exact visible other inside

/-- A valid text is appended as the body of a JSON string for it, inside of the string, if and only if
no character is above `U+FFFF`. -/
theorem catUtf8_denotes_iff (junk : UInt8) {s : Sds} {text : Bytes} (holds : Holds s text) (chars : List Char) :
    (∃ body, Holds (Sds.catUtf8 junk s (encoding chars)) (text ++ body) ∧ Denotes body chars) ↔
      ∀ char ∈ chars, char.toNat < 0x10000 := by
  have written := holds.catUtf8 junk chars
  constructor
  · rintro ⟨body, also, denotes⟩
    rw [append_cancel_left (also.unique written)] at denotes
    exact (denotes_iff chars).mp denotes
  · intro short
    exact ⟨_, written, (denotes_iff chars).mpr short⟩

theorem catUtf8_denotes_accent :
    ∃ body, Holds (Sds.catUtf8 0 (createLen 0 (.inr 0)) (encoding ['é'])) ([] ++ body) ∧ Denotes body ['é'] :=
  (catUtf8_denotes_iff 0 (holds_createLen 0 (.inr 0)) ['é']).mpr (forall_mem_singleton.mpr (by decide))

/-- An escape with five digits. -/
theorem wide_character_five_digits :
    (Sds.catUtf8 0 (createLen 0 (.inr 0)) (encoding [Char.ofNat 0x1f600])).buf.take 8 = ofString "\\u1f600" ++ [0] ∧
      ¬ Denotes (ofString "\\u1f600") [Char.ofNat 0x1f600] := by
  refine ⟨by decide +kernel, ?_⟩
  intro denotes
  have same : ofString "\\u1f600" = [Char.ofNat 0x1f600].flatMap piece := by decide +kernel
  rw [same] at denotes
  exact absurd (forall_mem_singleton.mp ((denotes_iff [Char.ofNat 0x1f600]).mp denotes)) (by decide)

end FluentBit.Strings.Sds
