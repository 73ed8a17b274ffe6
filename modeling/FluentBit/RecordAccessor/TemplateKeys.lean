import FluentBit.Json.Numbers
import FluentBit.RecordAccessor.Template
import Mathlib.Data.Nat.Digits.Lemmas

/-! The text of a key in a template, and what is parsed of it. A separator ends a key also inside of
quotes, and what is before it is no longer that key. -/

set_option autoImplicit false

namespace FluentBit.RecordAccessor

open List Nat Option Ascii

/-- A step of a key, `['name']` or `[number]`. -/
inductive Subkey where
  | name (text : Bytes)
  | index (number : Nat)

/-- A key `$name['name'][number]…`. -/
structure KeyPath where
  first : UInt8
  rest : Bytes
  subkeys : List Subkey

structure KeyPath.Valid (path : KeyPath) : Prop where
  first : isLetter path.first = true
  rest : ∀ byte ∈ path.rest, isWord byte = true ∧ byte ≠ dot

def quoted (text : Bytes) : Bytes :=
  text.flatMap fun byte => if byte = apostrophe then [apostrophe, apostrophe] else [byte]

def Subkey.text : Subkey → Bytes
  | .name text => openBracket :: apostrophe :: quoted text ++ [apostrophe, closeBracket]
  | .index number => openBracket :: Json.decimal number ++ [closeBracket]

def Subkey.parsed : Subkey → ParsedSubentry
  | .name text => .str text
  | .index number => .arrayId number

def KeyPath.word (path : KeyPath) : Bytes := path.first :: path.rest ++ path.subkeys.flatMap Subkey.text

def KeyPath.parsed (path : KeyPath) : ParsedKey :=
  { name := path.first :: path.rest, subkeys := path.subkeys.map Subkey.parsed }

/-- No byte but a dot ends the key inside of quotes, and a number is an `int`. -/
def Subkey.Sound : Subkey → Prop
  | .name text => ∀ byte ∈ text, isSeparator byte = true → byte = dot
  | .index number => atoi (Json.decimal number) = number

def Follows (text : Bytes) : Prop := ∀ byte ∈ text.head?, isSeparator byte = true

def cut (text : Bytes) : Bytes := text.take (keyLength false text)

section

variable {text more : Bytes}

theorem quoted_cons (byte : UInt8) :
    quoted (byte :: text) = (if byte = apostrophe then [apostrophe, apostrophe] else [byte]) ++ quoted text :=
  flatMap_cons

theorem quoted_append (front back : Bytes) : quoted (front ++ back) = quoted front ++ quoted back :=
  flatMap_append

/-! ### The length of a key -/

theorem keyLength_inside (plain : ∀ byte ∈ text, isSeparator byte = true → byte = dot) :
    keyLength true (quoted text ++ more) = (quoted text).length + keyLength true more := by
  induction text with
  | nil => simp [quoted]
  | cons byte text ih =>
    obtain ⟨first, later⟩ := forall_mem_cons.mp plain
    have rest := ih later
    rw [quoted_cons]
    by_cases isQuote : byte = apostrophe
    · simp only [isQuote, if_true, cons_append, nil_append, keyLength, Bool.not_true, Bool.not_false, rest,
        length_cons]
      omega
    · simp only [isQuote, if_false, cons_append, nil_append, keyLength, and_true, length_cons, rest]
      by_cases isDot : byte = dot
      · simp only [isDot, if_true]
        omega
      · have inner : isSeparator byte = false := by
          cases separates : isSeparator byte with
          | true => exact absurd (first separates) isDot
          | false => rfl
        simp only [isDot, if_false, inner, Bool.false_eq_true]
        omega

theorem keyLength_outside (plain : ∀ byte ∈ text, byte ≠ apostrophe ∧ isSeparator byte = false) :
    keyLength false (text ++ more) = text.length + keyLength false more := by
  induction text with
  | nil => simp
  | cons byte text ih =>
    obtain ⟨⟨notQuote, inner⟩, later⟩ := forall_mem_cons.mp plain
    simp only [cons_append, keyLength, notQuote, if_false, Bool.false_eq_true, and_false, inner, ih later,
      length_cons]
    omega

theorem keyLength_follows (follows : Follows text) : keyLength false text = 0 := by
  cases text with
  | nil => rfl
  | cons byte text =>
    have separates : isSeparator byte = true := follows byte rfl
    have notQuote : byte ≠ apostrophe := by
      rintro rfl
      exact absurd separates (by decide)
    simp [keyLength, notQuote, separates]

theorem cut_outside (plain : ∀ byte ∈ text, byte ≠ apostrophe ∧ isSeparator byte = false) :
    cut (text ++ more) = text ++ cut more := by
  rw [cut, keyLength_outside plain, take_length_add_append]
  rfl

theorem digit_plain : ∀ byte : UInt8, isDigit byte = true → byte ≠ apostrophe ∧ isSeparator byte = false := by
  apply forall_byte
  decide +kernel

theorem word_plain : ∀ byte : UInt8, isWord byte = true → byte ≠ dot →
    byte ≠ apostrophe ∧ isSeparator byte = false := by
  apply forall_byte
  decide +kernel

theorem letter_word : ∀ byte : UInt8, isLetter byte = true →
    isWord byte = true ∧ byte ≠ Ascii.dot ∧ byte ≠ Ascii.zero ∧ Ascii.isDigit byte = false := by
  apply forall_byte
  decide +kernel

theorem cut_name (plain : ∀ byte ∈ text, isSeparator byte = true → byte = dot) :
    cut ((Subkey.name text).text ++ more) = (Subkey.name text).text ++ cut more := by
  have length : keyLength false ((Subkey.name text).text ++ more) = (Subkey.name text).text.length + keyLength false more := by
    have inside := @keyLength_inside text (apostrophe :: closeBracket :: more) plain
    have bracket : isSeparator openBracket = false := by decide
    have closing : isSeparator closeBracket = false := by decide
    simp only [Subkey.text, cons_append, append_assoc, nil_append, keyLength,
      show openBracket ≠ apostrophe by decide, show closeBracket ≠ apostrophe by decide, if_false, if_true,
      bracket, closing, Bool.false_eq_true, and_false, Bool.not_true, Bool.not_false, inside, length_cons, length_append,
      length_nil]
    omega
  rw [cut, length, take_length_add_append]
  rfl

variable {before content behind rest : Bytes} {byte : UInt8} {path : KeyPath}

theorem cut_name_separator {after : Bytes} (plain : ∀ byte ∈ before, isSeparator byte = true → byte = dot)
    (separates : isSeparator byte = true) (notDot : byte ≠ dot) :
    cut ((Subkey.name (before ++ byte :: after)).text ++ more) = openBracket :: apostrophe :: quoted before := by
  have notQuote : byte ≠ apostrophe := by
    rintro rfl
    exact absurd separates (by decide)
  have shape : (Subkey.name (before ++ byte :: after)).text ++ more = openBracket :: apostrophe ::
      (quoted before ++ byte :: (quoted after ++ apostrophe :: closeBracket :: more)) := by
    simp [Subkey.text, quoted_append, quoted_cons, notQuote]
  have length : keyLength false ((Subkey.name (before ++ byte :: after)).text ++ more) = (quoted before).length + 2 := by
    have inside := @keyLength_inside before (byte :: (quoted after ++ apostrophe :: closeBracket :: more)) plain
    have bracket : isSeparator openBracket = false := by decide
    rw [shape]
    simp [keyLength, show openBracket ≠ apostrophe by decide, bracket, inside, notQuote, notDot, separates]
  rw [cut, length, shape, take_succ_cons, take_succ_cons, take_left]

theorem cut_index (number : Nat) : cut ((Subkey.index number).text ++ more) = (Subkey.index number).text ++ cut more := by
  apply cut_outside
  intro byte inside
  simp only [Subkey.text, cons_append, mem_cons, mem_append, not_mem_nil, or_false] at inside
  rcases inside with rfl | digit | rfl
  · decide
  · exact digit_plain byte (Json.decimal_isDigit digit)
  · decide

/-! ### Tokens of a key -/

theorem scanString_plain (notQuote : byte ≠ apostrophe) :
    scanString (byte :: rest) = (scanString rest).map fun (text, behind) => (byte :: text, behind) := by
  rw [scanString.eq_def]
  exact if_pos notQuote

theorem scanString_suffix (scanned : scanString text = some (content, behind)) : behind <:+ text := by
  induction text using scanString.induct generalizing content behind with
  | case1 => simp [scanString] at scanned
  | case2 byte rest notQuote ih =>
    rw [scanString_plain notQuote, map_eq_some_iff] at scanned
    obtain ⟨⟨inner, later⟩, found, equal⟩ := scanned
    cases equal
    exact (ih found).trans (suffix_cons byte rest)
  | case3 byte isQuote =>
    rw [scanString, if_neg isQuote] at scanned
    cases scanned
    exact nil_suffix
  | case4 byte isQuote next later notQuote =>
    simp only [scanString, if_neg isQuote, if_pos notQuote] at scanned
    cases scanned
    exact suffix_cons byte (next :: later)
  | case5 byte isQuote next later nextQuote inner behindInner found ih =>
    simp only [scanString, if_neg isQuote, if_neg nextQuote, found] at scanned
    cases scanned
    exact (ih found).trans ((suffix_cons next later).trans (suffix_cons byte (next :: later)))
  | case6 byte isQuote next later nextQuote missing ih =>
    simp only [scanString, if_neg isQuote, if_neg nextQuote, missing] at scanned
    cases scanned
    exact suffix_cons byte (next :: later)

theorem scanString_none (scanned : scanString text = none) : apostrophe ∉ text := by
  induction text using scanString.induct with
  | case1 => simp
  | case2 byte rest notQuote ih =>
    rw [scanString_plain notQuote, map_eq_none_iff] at scanned
    exact not_mem_cons_of_ne_of_not_mem (Ne.symm notQuote) (ih scanned)
  | case3 byte isQuote => simp only [scanString, if_neg isQuote, reduceCtorEq] at scanned
  | case4 byte isQuote next later notQuote =>
    simp only [scanString, if_neg isQuote, if_pos notQuote, reduceCtorEq] at scanned
  | case5 byte isQuote next later nextQuote inner behindInner found ih =>
    simp only [scanString, if_neg isQuote, if_neg nextQuote, found, reduceCtorEq] at scanned
  | case6 byte isQuote next later nextQuote missing ih =>
    simp only [scanString, if_neg isQuote, if_neg nextQuote, missing, reduceCtorEq] at scanned

theorem scanToken_suffix (byte : UInt8) (rest : Bytes) : (scanToken (byte :: rest)).2 <:+ rest := by
  simp only [scanToken]
  split
  · exact suffix_rfl
  split
  · exact dropWhile_suffix _
  split
  · exact dropWhile_suffix _
  split
  · cases scanned : scanString rest with
    | none => exact suffix_rfl
    | some result => exact scanString_suffix scanned
  repeat' split
  all_goals exact suffix_rfl

theorem scan_enough {fuel : Nat} (enough : text.length ≤ fuel) : scan fuel text = scan text.length text := by
  induction fuel using Nat.strong_induction_on generalizing text with
  | _ fuel ih =>
    cases text with
    | nil => cases fuel <;> rfl
    | cons byte rest =>
      cases fuel with
      | zero => simp at enough
      | succ fuel =>
        have shrinks := (scanToken_suffix byte rest).length_le
        have fits : rest.length ≤ fuel := le_of_succ_le_succ enough
        have left := ih fuel (lt_succ_self fuel) (shrinks.trans fits)
        have right := ih rest.length (lt_succ_of_le fits) shrinks
        simp [scan, left, right]

def tokens (text : Bytes) : List Token := scan text.length text

theorem tokens_cons :
    tokens (byte :: rest) = (scanToken (byte :: rest)).1.toList ++ tokens (scanToken (byte :: rest)).2 := by
  have behind := scan_enough (scanToken_suffix byte rest).length_le
  simp [tokens, scan, behind]

theorem tokens_token {token : Token} (scanned : scanToken (byte :: rest) = (some token, behind)) :
    tokens (byte :: rest) = token :: tokens behind := by
  rw [tokens_cons, scanned]
  rfl

theorem tokens_skip (scanned : scanToken (byte :: rest) = (none, behind)) : tokens (byte :: rest) = tokens behind := by
  rw [tokens_cons, scanned]
  rfl

theorem scanToken_quote : scanToken (apostrophe :: rest) = match scanString rest with
      | some (text, behind) => (some (.string text), behind)
      | none => (none, rest) := rfl

theorem string_quote (token : Token.string content ∈ tokens text) : apostrophe ∈ text := by
  induction length : text.length using Nat.strong_induction_on generalizing text with
  | _ size ih =>
    cases text with
    | nil => exact absurd token not_mem_nil
    | cons byte rest =>
      have suffix := scanToken_suffix byte rest
      rw [tokens_cons, mem_append] at token
      rcases token with first | later
      · by_cases isQuote : byte = apostrophe
        · exact isQuote ▸ mem_cons_self
        · exfalso
          unfold scanToken at first
          simp only [isQuote, if_false] at first
          revert first
          repeat' split
          all_goals simp
      · have shorter : (scanToken (byte :: rest)).2.length < size := by
          rw [← length]
          exact lt_succ_of_le suffix.length_le
        exact mem_cons_of_mem byte (suffix.subset (ih _ shorter later rfl))

theorem scanString_quoted :
    scanString (quoted text ++ apostrophe :: closeBracket :: more) = some (text, closeBracket :: more) := by
  induction text with
  | nil => simp [quoted, scanString, show closeBracket ≠ apostrophe by decide]
  | cons byte text ih =>
    rw [quoted_cons]
    by_cases isQuote : byte = apostrophe
    · simp [isQuote, scanString, ih]
    · simp [isQuote, scanString_plain isQuote, ih]

theorem scanString_open (scanned : scanString (quoted text) = some (content, behind)) :
    content.length < text.length := by
  induction text generalizing content behind with
  | nil => simp [quoted, scanString] at scanned
  | cons byte text ih =>
    rw [quoted_cons] at scanned
    by_cases isQuote : byte = apostrophe
    · simp only [isQuote, if_true, cons_append, nil_append, scanString, ne_eq, not_true, if_false] at scanned
      cases inner : scanString (quoted text) with
      | none =>
        simp only [inner] at scanned
        cases scanned
        exact succ_pos _
      | some result =>
        simp only [inner] at scanned
        cases scanned
        exact succ_lt_succ (ih inner)
    · simp only [isQuote, if_false, cons_append, nil_append, scanString_plain isQuote, map_eq_some_iff] at scanned
      obtain ⟨⟨inner, later⟩, found, equal⟩ := scanned
      cases equal
      exact succ_lt_succ (ih found)

theorem tokens_name :
    tokens ((Subkey.name text).text ++ more) = .openBracket :: .string text :: .closeBracket :: tokens more := by
  have shape : (Subkey.name text).text ++ more =
      openBracket :: apostrophe :: (quoted text ++ apostrophe :: closeBracket :: more) := by
    simp [Subkey.text]
  have inner : scanToken (apostrophe :: (quoted text ++ apostrophe :: closeBracket :: more)) =
      (some (.string text), closeBracket :: more) := by
    rw [scanToken_quote, scanString_quoted]
  rw [shape, tokens_token rfl, tokens_token inner, tokens_token rfl]

theorem tokens_open {later : List Token} (long : before.length ≤ content.length) :
    tokens (openBracket :: apostrophe :: quoted before) ≠ .openBracket :: .string content :: later := by
  rw [tokens_token rfl]
  intro equal
  obtain ⟨-, equal⟩ := List.cons.inj equal
  cases scanned : scanString (quoted before) with
  | none =>
    have noToken : scanToken (apostrophe :: quoted before) = (none, quoted before) := by
      rw [scanToken_quote, scanned]
    rw [tokens_skip noToken] at equal
    have member : Token.string content ∈ tokens (quoted before) := by
      rw [equal]
      exact mem_cons_self
    exact scanString_none scanned (string_quote member)
  | some result =>
    obtain ⟨inner, behind⟩ := result
    have token : scanToken (apostrophe :: quoted before) = (some (.string inner), behind) := by
      rw [scanToken_quote, scanned]
    rw [tokens_token token] at equal
    have same : inner = content := Token.string.inj (List.cons.inj equal).1
    have short := scanString_open scanned
    rw [same] at short
    omega

theorem decimal_head {number : Nat} (nonzero : number ≠ 0) : (Json.decimal number).head? ≠ some Ascii.zero := by
  intro leads
  rw [Json.decimal, if_neg nonzero, List.head?_reverse, List.getLast?_map, map_eq_some_iff] at leads
  obtain ⟨digit, last, isZero⟩ := leads
  have digits : Nat.digits 10 number ≠ [] := digits_ne_nil_iff_ne_zero.mpr nonzero
  have small : digit < 10 := digits_lt_base (by omega) (mem_of_getLast? last)
  rw [List.getLast?_eq_some_getLast digits, Option.some.injEq] at last
  have value := (Json.digit_byte ⟨digit, small⟩).2
  simp only [isZero] at value
  exact getLast_digit_ne_zero 10 nonzero (last.trans value.symm)

theorem tokens_index (number : Nat) : tokens ((Subkey.index number).text ++ more) =
      .openBracket :: .integer (atoi (Json.decimal number)) :: .closeBracket :: tokens more := by
  obtain ⟨byte, digits, decimal, digit⟩ := Json.decimal_cons number
  have shape : (Subkey.index number).text ++ more = openBracket :: byte :: (digits ++ closeBracket :: more) := by
    simp [Subkey.text, decimal]
  have behind : ∀ other ∈ digits, isDigit other = true := by
    intro other member
    exact Json.decimal_isDigit (by rw [decimal]; exact mem_cons_of_mem byte member)
  have inner : scanToken (byte :: (digits ++ closeBracket :: more)) =
      (some (.integer (atoi (Json.decimal number))), closeBracket :: more) := by
    by_cases isZero : number = 0
    · subst isZero
      have only : Json.decimal 0 = [Ascii.zero] := by decide
      rw [only] at decimal ⊢
      cases decimal
      rfl
    · have nonzero : byte ≠ Ascii.zero := by
        rintro rfl
        exact decimal_head isZero (by rw [decimal]; rfl)
      have closes : isDigit closeBracket = false := rfl
      rw [scanToken.eq_def]
      simp [nonzero, digit, decimal, takeWhile_append_of_pos behind, dropWhile_append_of_pos behind, closes]
  rw [shape, tokens_token rfl, tokens_token inner, tokens_token rfl]

theorem name_split (broken : ¬ (Subkey.name text).Sound) : ∃ before byte after,
    text = before ++ byte :: after ∧ (∀ byte ∈ before, isSeparator byte = true → byte = dot) ∧
      isSeparator byte = true ∧ byte ≠ dot := by
  induction text with
  | nil => exact absurd (fun byte member => absurd member not_mem_nil) broken
  | cons first text ih =>
    by_cases here : isSeparator first = true ∧ first ≠ dot
    · exact ⟨[], first, text, rfl, by simp, here⟩
    · have plain : isSeparator first = true → first = dot := by
        intro separates
        by_contra notDot
        exact here ⟨separates, notDot⟩
      have later : ¬ (Subkey.name text).Sound := fun sound => broken (forall_mem_cons.mpr ⟨plain, sound⟩)
      obtain ⟨before, byte, after, rfl, inner, ends⟩ := ih later
      exact ⟨first :: before, byte, after, rfl, forall_mem_cons.mpr ⟨plain, inner⟩, ends⟩

theorem parseSubkeys_name {all : List Token} {later : List ParsedSubentry}
    (parsed : parseSubkeys all = some (.str text :: later)) : ∃ rest, all = .openBracket :: .string text :: rest := by
  unfold parseSubkeys at parsed
  split at parsed
  · simp at parsed
  · obtain ⟨rest, -, equal⟩ := map_eq_some_iff.mp parsed
    cases equal
    exact ⟨_, rfl⟩
  · obtain ⟨rest, -, equal⟩ := map_eq_some_iff.mp parsed
    cases equal
  · simp at parsed

variable {after : Bytes}

theorem parseSubkeys_cut (subkeys : List Subkey) (follows : Follows after) :
    parseSubkeys (tokens (cut (subkeys.flatMap Subkey.text ++ after))) = some (subkeys.map Subkey.parsed) ↔
      ∀ subkey ∈ subkeys, subkey.Sound := by
  induction subkeys with
  | nil =>
    have nothing : cut after = [] := by rw [cut, keyLength_follows follows, take_zero]
    simp [nothing, tokens, scan, parseSubkeys]
  | cons subkey subkeys ih =>
    rw [forall_mem_cons, flatMap_cons, append_assoc, map_cons]
    cases subkey with
    | index number =>
      rw [cut_index, tokens_index, parseSubkeys, ← ih, map_eq_some_iff]
      simp [Subkey.parsed, Subkey.Sound, and_comm]
    | name text =>
      by_cases sound : (Subkey.name text).Sound
      · rw [cut_name sound, tokens_name, parseSubkeys, ← ih, map_eq_some_iff]
        simp [Subkey.parsed, sound]
      · obtain ⟨before, byte, rest, rfl, plain, separates, notDot⟩ := name_split sound
        rw [cut_name_separator plain separates notDot]
        simp only [sound, false_and, iff_false]
        intro parsed
        obtain ⟨later, equal⟩ := parseSubkeys_name parsed
        exact tokens_open (by simp) equal

theorem cut_head (subkeys : List Subkey) (follows : Follows after) :
    ∀ byte ∈ (cut (subkeys.flatMap Subkey.text ++ after)).head?, byte = openBracket := by
  intro byte head
  cases subkeys with
  | nil =>
    rw [flatMap_nil, nil_append, cut, keyLength_follows follows] at head
    simp at head
  | cons subkey subkeys =>
    obtain ⟨tail, shape⟩ : ∃ tail, subkey.text = openBracket :: tail := by
      cases subkey <;> exact ⟨_, rfl⟩
    rw [flatMap_cons, shape, cons_append, cons_append, cut, List.head?_take] at head
    split at head
    · simp at head
    · exact (Option.some.inj head).symm

theorem name_plain (valid : path.Valid) :
    ∀ byte ∈ path.first :: path.rest, byte ≠ apostrophe ∧ isSeparator byte = false := by
  intro byte member
  rcases mem_cons.mp member with rfl | later
  · obtain ⟨word, notDot, -⟩ := letter_word _ valid.first
    exact word_plain _ word notDot
  · exact word_plain _ (valid.rest byte later).1 (valid.rest byte later).2

theorem cut_subkeys {subkeys : List Subkey} (follows : Follows after) (sound : ∀ subkey ∈ subkeys, subkey.Sound) :
    cut (subkeys.flatMap Subkey.text ++ after) = subkeys.flatMap Subkey.text := by
  induction subkeys with
  | nil => rw [flatMap_nil, nil_append, cut, keyLength_follows follows, take_zero]
  | cons subkey subkeys ih =>
    obtain ⟨first, later⟩ := forall_mem_cons.mp sound
    rw [flatMap_cons, append_assoc]
    cases subkey with
    | index number => rw [cut_index, ih later]
    | name text => rw [cut_name first, ih later]

theorem cut_path (valid : path.Valid) (follows : Follows after) (sound : ∀ subkey ∈ path.subkeys, subkey.Sound) :
    cut (path.word ++ after) = path.word := by
  rw [KeyPath.word, append_assoc, cut_outside (name_plain valid), cut_subkeys follows sound]

/-- A path is parsed as it is written if its subkeys are sound, and only then. -/
theorem metaCreate_cut (valid : path.Valid) (follows : Follows after) :
    metaCreate (dollar :: cut (path.word ++ after)) = some path.parsed ↔ ∀ subkey ∈ path.subkeys, subkey.Sound := by
  have shape : cut (path.word ++ after) =
      path.first :: (path.rest ++ cut (path.subkeys.flatMap Subkey.text ++ after)) := by
    rw [KeyPath.word, append_assoc, cut_outside (name_plain valid), cons_append]
  have identifier : scanToken (path.first :: (path.rest ++ cut (path.subkeys.flatMap Subkey.text ++ after))) =
      (some (.identifier (path.first :: path.rest)), cut (path.subkeys.flatMap Subkey.text ++ after)) := by
    obtain ⟨-, -, nonzero, noDigit⟩ := letter_word _ valid.first
    have word : ∀ byte ∈ path.rest, isWord byte = true := fun byte member => (valid.rest byte member).1
    have ends := cut_head path.subkeys follows
    rw [scanToken.eq_def]
    simp only [nonzero, if_false, noDigit, Bool.false_eq_true, valid.first, if_true, takeWhile_append_of_pos word,
      dropWhile_append_of_pos word]
    cases behind : cut (path.subkeys.flatMap Subkey.text ++ after) with
    | nil => simp
    | cons byte more =>
      have bracket : byte = openBracket := ends byte (by rw [behind]; rfl)
      have noWord : isWord byte = false := by rw [bracket]; rfl
      simp [noWord]
  rw [shape, metaCreate, ← tokens, tokens_token rfl, tokens_token identifier, parseKey, ← parseSubkeys_cut path.subkeys follows,
    map_eq_some_iff]
  simp [KeyPath.parsed]

end

end FluentBit.RecordAccessor
