import FluentBit.Foundation.Segments
import FluentBit.RecordAccessor.TemplateKeys

/-! Templates of literals and placeholders: when `ra_parse_buffer` finds the placeholders that a template
is made of, and `flb_ra_translate` puts their values in their places. -/

set_option autoImplicit false

namespace FluentBit.RecordAccessor

open List Nat Option Ascii

/-! ### Templates -/

inductive Placeholder where
  | tag
  | tagPart (number : Nat)
  | capture (digit : Fin 10)
  | key (path : KeyPath)

def digitByte (digit : Fin 10) : UInt8 := UInt8.ofNat (0x30 + digit)

def Placeholder.word : Placeholder → Bytes
  | .tag => tagWord
  | .tagPart number => tagWord ++ (Subkey.index number).text
  | .capture digit => [digitByte digit]
  | .key path => path.word

def Placeholder.part : Placeholder → Part
  | .tag => .tag
  | .tagPart number => .tagPart number
  | .capture digit => .regexId (digit : Nat)
  | .key path => .keymap path.parsed

def tagParts (tag : Bytes) : List Bytes :=
  let (parts, last) := Segments.split (· == dot) tag
  parts ++ [last]

def Placeholder.value (source : Source) : Placeholder → Bytes
  | .tag => source.tag
  | .tagPart number => (tagParts source.tag)[number]?.getD []
  | .capture digit => (source.captures (digit : Nat)).getD []
  | .key path => raTranslateKeymap source path.parsed

abbrev Item := Placeholder × Bytes

def itemsText : List Item → Bytes
  | [] => []
  | (placeholder, literal) :: items => dollar :: placeholder.word ++ (literal ++ itemsText items)

def itemsValue (source : Source) : List Item → Bytes
  | [] => []
  | (placeholder, literal) :: items => placeholder.value source ++ literal ++ itemsValue source items

def literalPart (literal : Bytes) : List Part := if literal = [] then [] else [.string literal]

def itemsParts : List Item → List Part
  | [] => []
  | (placeholder, literal) :: items => placeholder.part :: (literalPart literal ++ itemsParts items)

def ItemsValid : List Item → Prop
  | [] => True
  | (placeholder, literal) :: items =>
    dollar ∉ literal ∧ (∀ path, placeholder = .key path → path.Valid ∧ Follows (literal ++ itemsText items)) ∧
      ItemsValid items

structure Template where
  lead : Bytes
  items : List Item

def Template.text (template : Template) : Bytes := template.lead ++ itemsText template.items

def Template.value (source : Source) (template : Template) : Bytes :=
  template.lead ++ itemsValue source template.items

def Template.parts (template : Template) : List Part := literalPart template.lead ++ itemsParts template.items

structure Template.Valid (template : Template) : Prop where
  lead : dollar ∉ template.lead
  items : ItemsValid template.items

def Part.visible : Part → Bool
  | .string text => !text.isEmpty
  | _ => true

def Template.Correct (template : Template) : Prop :=
  ∃ parts, raParseBuffer template.text = some parts ∧ parts.filter Part.visible = template.parts ∧
    ∀ source, flbRaTranslate source parts = template.value source

def Placeholder.Recognised (literal : Bytes) (items : List Item) : Placeholder → Prop
  | .tag => literal.head? = some openBracket → literal = [openBracket] ∧ items = []
  | .tagPart number => atoi (Json.decimal number) = number
  | .capture digit => atoi (digitByte digit :: literal) = (digit : Nat)
  | .key path => ¬ tagWord <+: path.first :: path.rest ∧ ∀ subkey ∈ path.subkeys, subkey.Sound

def Placeholder.Kept (literal : Bytes) (items : List Item) : Placeholder → Prop
  | .tag => literal = [] → items = []
  | .tagPart _ => literal = [] → items = []
  | .capture _ => True
  | .key _ => ¬ (literal.length = 1 ∧ items = [])

def ItemsSound : List Item → Prop
  | [] => True
  | (placeholder, literal) :: items =>
    placeholder.Recognised literal items ∧ placeholder.Kept literal items ∧ ItemsSound items

def Template.Sound (template : Template) : Prop := ItemsSound template.items

/-! ### The loop -/

def parsedFrom (buf : Bytes) (cursor : Cursor) : Option (List Part) :=
  (raParseLoop buf (buf.length + 1 - cursor.i) cursor).map fun (parts, last) => parts ++ remaining buf last

section

variable {buf : Bytes} {cursor : Cursor}

theorem raPlaceholder_right {i : Nat} {stop : Int} {part : Part} {next : Cursor}
    (placed : raPlaceholder buf i stop = some (part, next)) : i < next.i := by
  simp only [raPlaceholder] at placed
  split at placed
  · cases placed
    exact lt_succ_self i
  split at placed
  · split at placed
    · cases placed
      have low : -1 ≤ searchBracket (buf.drop (i + 1 + 3)) := by
        unfold searchBracket
        repeat' split
        all_goals omega
      simp only
      omega
    · cases placed
      simp only
      omega
  · obtain ⟨key, -, equal⟩ := map_eq_some_iff.mp placed
    cases equal
    simp only
    omega

theorem raParseLoop_enough {fuel other : Nat} (enough : buf.length + 1 ≤ fuel + cursor.i)
    (alsoEnough : buf.length + 1 ≤ other + cursor.i) : raParseLoop buf fuel cursor = raParseLoop buf other cursor := by
  induction fuel generalizing other cursor with
  | zero =>
    have past : buf.length ≤ cursor.i := by omega
    cases other with
    | zero => rfl
    | succ other => rw [raParseLoop, raParseLoop, if_pos past]
  | succ fuel ih =>
    by_cases past : buf.length ≤ cursor.i
    · cases other with
      | zero => rw [raParseLoop, raParseLoop, if_pos past]
      | succ other => rw [raParseLoop, raParseLoop, if_pos past, if_pos past]
    · cases other with
      | zero => omega
      | succ other =>
        have skipped : raParseLoop buf fuel { cursor with i := cursor.i + 1 } =
            raParseLoop buf other { cursor with i := cursor.i + 1 } := ih (by simp only; omega) (by simp only; omega)
        rw [raParseLoop, raParseLoop, skipped]
        cases placed : raPlaceholder buf cursor.i cursor.stop with
        | none => rfl
        | some result =>
          obtain ⟨part, next⟩ := result
          have right := raPlaceholder_right placed
          have later : raParseLoop buf fuel { next with i := next.i + 1 } =
              raParseLoop buf other { next with i := next.i + 1 } := ih (by simp only; omega) (by simp only; omega)
          simp [later]

theorem raParseBuffer_eq : raParseBuffer buf = parsedFrom buf { i := 0, pre := 0, stop := 0 } := by
  have enough := @raParseLoop_enough buf { i := 0, pre := 0, stop := 0 } (buf.length + 2) (buf.length + 1)
    (by simp only; omega) (by simp only; omega)
  rw [raParseBuffer, parsedFrom, enough]
  cases raParseLoop buf (buf.length + 1) { i := 0, pre := 0, stop := 0 } <;> rfl

theorem parsedFrom_end (past : buf.length ≤ cursor.i) : parsedFrom buf cursor = some (remaining buf cursor) := by
  have stays : raParseLoop buf (buf.length + 1 - cursor.i) cursor = some ([], cursor) := by
    cases buf.length + 1 - cursor.i with
    | zero => rfl
    | succ fuel => rw [raParseLoop, if_pos past]
  rw [parsedFrom, stays]
  rfl

variable {byte : UInt8}

theorem parsedFrom_skip (here : buf[cursor.i]? = some byte) (plain : byte ≠ dollar) :
    parsedFrom buf cursor = parsedFrom buf { cursor with i := cursor.i + 1 } := by
  obtain ⟨inside, -⟩ := List.getElem?_eq_some_iff.mp here
  have fuel : buf.length + 1 - cursor.i = buf.length + 1 - (cursor.i + 1) + 1 := by omega
  have noDollar : some byte ≠ some dollar := fun equal => plain (Option.some.inj equal)
  rw [parsedFrom, parsedFrom, fuel, raParseLoop, if_neg (by omega), here, if_pos noDollar]

theorem parsedFrom_dollar (here : buf[cursor.i]? = some dollar) (more : cursor.i + 1 < buf.length) :
    parsedFrom buf cursor = (raPlaceholder buf cursor.i cursor.stop).bind fun (part, next) =>
      (parsedFrom buf { next with i := next.i + 1 }).map fun parts => textBefore buf cursor.pre cursor.i ++ part :: parts := by
  have fuel : buf.length + 1 - cursor.i = buf.length - cursor.i + 1 := by omega
  rw [parsedFrom, fuel, raParseLoop, if_neg (by omega), if_neg (not_not_intro here), if_neg (by omega)]
  cases placed : raPlaceholder buf cursor.i cursor.stop with
  | none => rfl
  | some result =>
    obtain ⟨part, next⟩ := result
    have right := raPlaceholder_right placed
    have enough : raParseLoop buf (buf.length - cursor.i) { next with i := next.i + 1 } =
        raParseLoop buf (buf.length + 1 - (next.i + 1)) { next with i := next.i + 1 } :=
      raParseLoop_enough (by simp only; omega) (by simp only; omega)
    simp only [bind_eq_bind, bind_some, enough, parsedFrom, Option.map_map]
    cases raParseLoop buf (buf.length + 1 - (next.i + 1)) { next with i := next.i + 1 } with
    | none => rfl
    | some result => simp

theorem parsedFrom_lone (here : buf[cursor.i]? = some dollar) (last : buf.length = cursor.i + 1) :
    parsedFrom buf cursor =
      some (textBefore buf cursor.pre cursor.i ++ remaining buf { cursor with pre := cursor.i }) := by
  have fuel : buf.length + 1 - cursor.i = buf.length - cursor.i + 1 := by omega
  rw [parsedFrom, fuel, raParseLoop, if_neg (by omega), if_neg (not_not_intro here), if_pos (by omega)]
  rfl

theorem parsedFrom_literal {front literal back : Bytes} (plain : dollar ∉ literal)
    (shape : buf = front ++ (literal ++ back)) (starts : cursor.i = front.length) :
    parsedFrom buf cursor = parsedFrom buf { cursor with i := front.length + literal.length } := by
  induction literal generalizing front cursor with
  | nil => rw [length_nil, Nat.add_zero, ← starts]
  | cons byte literal ih =>
    have notHere : dollar ≠ byte := ne_of_not_mem_cons plain
    have notLater : dollar ∉ literal := not_mem_of_not_mem_cons plain
    have here : buf[cursor.i]? = some byte := by simp [shape, starts]
    have moved : buf = (front ++ [byte]) ++ (literal ++ back) := by simp [shape]
    rw [parsedFrom_skip here (Ne.symm notHere), ih notLater moved (by simp [starts])]
    simp only [length_append, length_cons, length_nil]
    congr 2
    omega

theorem parsedFrom_string {parts : List Part} (behind : cursor.pre < cursor.i) (stops : cursor.stop < cursor.pre)
    (first : buf[cursor.pre]? = some byte) (parsed : parsedFrom buf cursor = some parts) :
    ∃ text rest, parts = .string (byte :: text) :: rest := by
  obtain ⟨inside, value⟩ := List.getElem?_eq_some_iff.mp first
  have dropped : buf.drop cursor.pre = byte :: buf.drop (cursor.pre + 1) := by
    rw [← value]
    exact drop_eq_getElem_cons inside
  induction left : buf.length - cursor.i generalizing cursor with
  | zero =>
    have past : buf.length ≤ cursor.i := by omega
    rw [parsedFrom_end past, remaining, if_pos (Or.inl ⟨by omega, behind⟩), dropped] at parsed
    cases parsed
    exact ⟨_, [], rfl⟩
  | succ left ih =>
    have here : buf[cursor.i]? = some (buf.get ⟨cursor.i, by omega⟩) := List.getElem?_eq_getElem _
    by_cases isDollar : buf.get ⟨cursor.i, by omega⟩ = dollar
    · have count : cursor.i - cursor.pre = cursor.i - cursor.pre - 1 + 1 := by omega
      have before : textBefore buf cursor.pre cursor.i =
          [.string (byte :: (buf.drop (cursor.pre + 1)).take (cursor.i - cursor.pre - 1))] := by
        rw [textBefore, if_pos behind, drop_take, dropped, count, take_succ_cons, Nat.add_sub_cancel]
      rw [isDollar] at here
      by_cases last : buf.length = cursor.i + 1
      · rw [parsedFrom_lone here last, before] at parsed
        cases parsed
        exact ⟨_, _, rfl⟩
      · rw [parsedFrom_dollar here (by omega), before] at parsed
        obtain ⟨⟨part, next⟩, -, later⟩ := bind_eq_some_iff.mp parsed
        obtain ⟨parts, -, equal⟩ := map_eq_some_iff.mp later
        cases equal
        exact ⟨_, _, rfl⟩
    · rw [parsedFrom_skip here isDollar] at parsed
      exact @ih { cursor with i := cursor.i + 1 } (lt_succ_of_lt behind) stops first parsed inside value dropped
        (by simp only; omega)

/-! ### Placeholders -/

theorem raPlaceholder_eq (front tail : Bytes) (stop : Int) :
    raPlaceholder (front ++ dollar :: tail) front.length stop = if tail.head?.any isDigit then
        some (.regexId (atoi tail), { i := front.length + 1, pre := front.length + 2, stop })
      else if tagWord <+: tail then if 4 < tail.length ∧ tail[3]? = some openBracket then
          let stop := searchBracket (tail.drop 3)
          let behind := ((front.length + 4 : Nat) + stop + 1).toNat
          some (.tagPart (atoi (tail.drop 4)), { i := behind, pre := behind, stop }) else
          some (.tag, { i := front.length + 4, pre := front.length + 4, stop := if 4 < tail.length then -1 else stop })
      else
        let stop := front.length + 1 + keyLength false tail
        (metaCreate (dollar :: cut tail)).map fun key => (.keymap key, { i := stop, pre := stop, stop }) := by
  have behind (count : Nat) : (front ++ dollar :: tail).drop (front.length + 1 + count) = tail.drop count := by
    rw [← drop_drop, ← drop_drop, drop_left]
    rfl
  have first : (front ++ dollar :: tail).drop (front.length + 1) = tail := behind 0
  have third : (front ++ dollar :: tail).drop (front.length + 4) = tail.drop 3 := behind 3
  have fourth : (front ++ dollar :: tail).drop (front.length + 5) = tail.drop 4 := behind 4
  have inside (count : Nat) : (front ++ dollar :: tail)[front.length + 1 + count]? = tail[count]? := by
    rw [← List.getElem?_drop, first]
  have head : (front ++ dollar :: tail)[front.length + 1]? = tail.head? := by
    rw [List.head?_eq_getElem?]
    exact inside 0
  have long : front.length + 1 + 4 < (front ++ dollar :: tail).length ↔ 4 < tail.length := by
    simp only [length_append, length_cons]
    omega
  have key : ((front ++ dollar :: tail).take (front.length + 1 + keyLength false tail)).drop front.length =
      dollar :: cut tail := by
    rw [drop_take, drop_left, show front.length + 1 + keyLength false tail - front.length = keyLength false tail + 1
      by omega, take_succ_cons, cut]
  simp only [raPlaceholder, head, first, inside 3, long, key, show front.length + 1 + 3 = front.length + 4 by omega,
    show front.length + 4 + 1 = front.length + 5 by omega, third, fourth]

theorem digitByte_isDigit : ∀ digit : Fin 10, isDigit (digitByte digit) = true := by decide +kernel

theorem digit_first : ∀ byte : UInt8, isDigit byte = true → byte ≠ minus ∧ byte ≠ 0x2b ∧ isSpace byte = false := by
  apply forall_byte
  decide +kernel

theorem atoi_digit {first : UInt8} (digit : isDigit first = true) (behind : Bytes) :
    atoi (first :: behind) = toInt (number 10 ((first :: behind).takeWhile isDigit)) := by
  obtain ⟨noMinus, noPlus, noSpace⟩ := digit_first first digit
  rw [atoi, dropWhile_cons_of_neg (by simp [noSpace])]
  simp [noMinus, noPlus]

theorem takeWhile_dollar (p : UInt8 → Bool) (stops : p dollar = false) {behind : Bytes}
    (ends : ∀ byte ∈ behind.head?, byte = dollar) (text : Bytes) : (text ++ behind).takeWhile p = text.takeWhile p := by
  induction text with
  | nil =>
    cases behind with
    | nil => rfl
    | cons byte behind => rw [nil_append, ends byte rfl, takeWhile_cons_of_neg (by simp [stops]), takeWhile_nil]
  | cons byte text ih => rw [cons_append, takeWhile_cons, takeWhile_cons, ih]

theorem itemsText_head (items : List Item) : ∀ byte ∈ (itemsText items).head?, byte = dollar := by
  intro byte head
  cases items with
  | nil => simp [itemsText] at head
  | cons item items =>
    obtain ⟨placeholder, literal⟩ := item
    exact (Option.some.inj head).symm

theorem itemsText_nil {items : List Item} : itemsText items = [] ↔ items = [] := by
  cases items with
  | nil | cons item items => simp [itemsText]

structure Arrived (placeholder : Placeholder) (place : Nat) (cursor : Cursor) : Prop where
  pre : cursor.pre = place
  i : cursor.i = match placeholder with
    | .capture _ => place
    | _ => place + 1
  stop : match placeholder with
    | .key _ => cursor.stop = place
    | _ => cursor.stop < place

def tailText (placeholder : Placeholder) (literal : Bytes) (items : List Item) : Bytes :=
  placeholder.word ++ (literal ++ itemsText items)

section

variable (front literal : Bytes) (items : List Item) (stop : Int)

theorem raPlaceholder_capture (digit : Fin 10) :
    raPlaceholder (front ++ dollar :: tailText (.capture digit) literal items) front.length stop =
      some (.regexId (atoi (digitByte digit :: literal)), { i := front.length + 1, pre := front.length + 2, stop }) := by
  have isDigit := digitByte_isDigit digit
  have number : atoi (tailText (.capture digit) literal items) = atoi (digitByte digit :: literal) := by
    have digits := takeWhile_dollar Ascii.isDigit rfl (itemsText_head items) (digitByte digit :: literal)
    rw [cons_append] at digits
    simp [tailText, Placeholder.word, atoi_digit isDigit, digits]
  have head : (tailText (.capture digit) literal items).head?.any Ascii.isDigit = true := isDigit
  rw [raPlaceholder_eq, if_pos head, number]

theorem raPlaceholder_tag : raPlaceholder (front ++ dollar :: tailText .tag literal items) front.length stop =
      if 4 < (tailText .tag literal items).length ∧ (literal ++ itemsText items).head? = some openBracket then
        let stop := searchBracket (literal ++ itemsText items)
        let behind := ((front.length + 4 : Nat) + stop + 1).toNat
        some (.tagPart (atoi ((literal ++ itemsText items).drop 1)), { i := behind, pre := behind, stop })
      else
        let stop := if 4 < (tailText .tag literal items).length then -1 else stop
        some (.tag, { i := front.length + 4, pre := front.length + 4, stop }) := by
  have third : (tailText .tag literal items)[3]? = (literal ++ itemsText items).head? := by
    rw [List.head?_eq_getElem?]
    rfl
  have noDigit : (tailText .tag literal items).head?.any isDigit = false := rfl
  have starts : tagWord <+: tailText .tag literal items := prefix_append ..
  rw [raPlaceholder_eq, noDigit, if_neg Bool.false_ne_true, if_pos starts, third]
  rfl

theorem idxOf?_word {word more : Bytes} {byte : UInt8} (absent : byte ∉ word) :
    (word ++ byte :: more).idxOf? byte = some word.length := by
  induction word with
  | nil => simp [List.idxOf?_cons]
  | cons first word ih =>
    have other : first ≠ byte := Ne.symm (ne_of_not_mem_cons absent)
    rw [cons_append, List.idxOf?_cons, ih (not_mem_of_not_mem_cons absent)]
    simp [other]

theorem raPlaceholder_tagPart (number : Nat) :
    raPlaceholder (front ++ dollar :: tailText (.tagPart number) literal items) front.length stop =
      let behind := front.length + 1 + (Placeholder.tagPart number).word.length
      some (.tagPart (atoi (Json.decimal number)), { i := behind, pre := behind, stop := (Json.decimal number).length + 1 }) := by
  obtain ⟨byte, digits, decimal, digit⟩ := Json.decimal_cons number
  have shape : tailText (.tagPart number) literal items = tagWord ++ openBracket ::
      (Json.decimal number ++ closeBracket :: (literal ++ itemsText items)) := by
    simp [tailText, Placeholder.word, Subkey.text]
  have absent : closeBracket ∉ openBracket :: Json.decimal number := by
    intro member
    rcases mem_cons.mp member with bracket | inside
    · exact absurd bracket (by decide)
    · exact absurd (Json.decimal_isDigit inside) (by decide)
  have closing : searchBracket (openBracket ::
      (Json.decimal number ++ closeBracket :: (literal ++ itemsText items))) = (Json.decimal number).length + 1 := by
    have found := @idxOf?_word (openBracket :: Json.decimal number) (literal ++ itemsText items) _ absent
    rw [cons_append] at found
    simp [searchBracket, found]
  have digitsOnly : atoi (Json.decimal number ++ closeBracket :: (literal ++ itemsText items)) =
      atoi (Json.decimal number) := by
    have all : ∀ other ∈ byte :: digits, isDigit other = true := by
      rw [← decimal]
      exact fun other member => Json.decimal_isDigit member
    rw [decimal, cons_append, atoi_digit digit, atoi_digit digit, ← cons_append, takeWhile_append_of_pos all]
    simp [show isDigit closeBracket = false from rfl, takeWhile_eq_self_iff.mpr all]
  have dropped : (tailText (.tagPart number) literal items).drop 3 = openBracket ::
      (Json.decimal number ++ closeBracket :: (literal ++ itemsText items)) := by rw [shape]; rfl
  have beyond : (tailText (.tagPart number) literal items).drop 4 =
      Json.decimal number ++ closeBracket :: (literal ++ itemsText items) := by rw [shape]; rfl
  have bracket : 4 < (tailText (.tagPart number) literal items).length ∧
      (tailText (.tagPart number) literal items)[3]? = some openBracket := by
    constructor
    · simp only [shape, tagWord, decimal, length_append, length_cons]
      omega
    · rw [shape]
      rfl
  have noDigit : (tailText (.tagPart number) literal items).head?.any isDigit = false := rfl
  have starts : tagWord <+: tailText (.tagPart number) literal items := by
    rw [shape]
    exact prefix_append ..
  rw [raPlaceholder_eq, noDigit, if_neg Bool.false_ne_true, if_pos starts, if_pos bracket, dropped, beyond, closing,
    digitsOnly]
  have place : ((front.length + 4 : Nat) + (((Json.decimal number).length : Int) + 1) + 1).toNat =
      front.length + 1 + (Placeholder.tagPart number).word.length := by
    simp only [Placeholder.word, Subkey.text, tagWord, length_append, length_cons, length_nil]
    omega
  simp only [place]

/-! ### Keys -/

theorem prefix_inside {p : UInt8 → Bool} {word name behind : Bytes} (all : ∀ byte ∈ word, p byte = true)
    (ends : ∀ byte ∈ behind.head?, p byte = false) : word <+: name ++ behind ↔ word <+: name := by
  induction word generalizing name with
  | nil => simp
  | cons byte word ih =>
    obtain ⟨first, later⟩ := forall_mem_cons.mp all
    cases name with
    | nil =>
      cases behind with
      | nil => simp
      | cons other behind =>
        have differs : byte ≠ other := by
          rintro rfl
          exact absurd first (by simp [ends byte rfl])
        simp [differs]
    | cons other name => rw [cons_append, cons_prefix_cons, cons_prefix_cons, ih later]

theorem keyLength_le (inside : Bool) (text : Bytes) : keyLength inside text ≤ text.length := by
  induction text generalizing inside with
  | nil => exact Nat.le_refl 0
  | cons byte text ih =>
    rw [keyLength, length_cons]
    repeat' split
    all_goals first | exact succ_le_succ (ih _) | exact Nat.zero_le _

section

variable {path : KeyPath}

theorem key_noDigit (valid : path.Valid) : (tailText (.key path) literal items).head?.any isDigit = false :=
  (letter_word _ valid.first).2.2.2

theorem tag_begins_iff (follows : Follows (literal ++ itemsText items)) :
    tagWord <+: tailText (.key path) literal items ↔ tagWord <+: path.first :: path.rest := by
  have shape : tailText (.key path) literal items =
      (path.first :: path.rest) ++ (path.subkeys.flatMap Subkey.text ++ (literal ++ itemsText items)) := by
    simp [tailText, Placeholder.word, KeyPath.word]
  have ends : ∀ byte ∈ (path.subkeys.flatMap Subkey.text ++ (literal ++ itemsText items)).head?, isLetter byte = false := by
    intro byte head
    cases subkeys : path.subkeys with
    | nil =>
      rw [subkeys, flatMap_nil, nil_append] at head
      have separates := follows byte head
      cases letter : isLetter byte with
      | false => rfl
      | true =>
        obtain ⟨word, notDot, -⟩ := letter_word byte letter
        rw [(word_plain byte word notDot).2] at separates
        exact absurd separates Bool.false_ne_true
    | cons subkey later =>
      have bracket : byte = openBracket := by
        rw [subkeys] at head
        cases subkey <;> exact (Option.some.inj head).symm
      rw [bracket]
      rfl
  rw [shape, prefix_inside (p := isLetter) (forall_mem_of_all (by decide)) ends]

theorem raPlaceholder_key (valid : path.Valid) (follows : Follows (literal ++ itemsText items))
    (notTag : ¬ tagWord <+: path.first :: path.rest) (next : Cursor) :
    raPlaceholder (front ++ dollar :: tailText (.key path) literal items) front.length stop =
        some ((Placeholder.key path).part, next) ↔ (∀ subkey ∈ path.subkeys, subkey.Sound) ∧
        next = { i := front.length + 1 + path.word.length, pre := front.length + 1 + path.word.length,
                 stop := (front.length + 1 + path.word.length : Nat) } := by
  have noTag : ¬ tagWord <+: tailText (.key path) literal items := by rwa [tag_begins_iff literal items follows]
  have parsed := metaCreate_cut valid follows
  have length (sound : ∀ subkey ∈ path.subkeys, subkey.Sound) :
      keyLength false (tailText (.key path) literal items) = path.word.length := by
    have whole := congrArg List.length (cut_path valid follows sound)
    rwa [cut, length_take_of_le (keyLength_le _ _)] at whole
  rw [raPlaceholder_eq, key_noDigit literal items valid, if_neg Bool.false_ne_true, if_neg noTag, map_eq_some_iff]
  constructor
  · rintro ⟨key, created, equal⟩
    obtain ⟨samePart, rfl⟩ := Prod.mk.inj equal
    cases samePart
    have sound := parsed.mp created
    rw [length sound]
    exact ⟨sound, rfl⟩
  · rintro ⟨sound, rfl⟩
    rw [length sound]
    exact ⟨path.parsed, parsed.mpr sound, rfl⟩

end

theorem bracket_iff :
    (4 < (tailText .tag literal items).length ∧ (literal ++ itemsText items).head? = some openBracket) ↔
      ¬ Placeholder.Recognised literal items .tag := by
  have length : (tailText .tag literal items).length = literal.length + (itemsText items).length + 3 := by
    simp only [tailText, Placeholder.word, tagWord, length_append, length_cons, length_nil]
    omega
  have empty : (itemsText items).length = 0 ↔ items = [] := length_eq_zero_iff.trans itemsText_nil
  cases literal with
  | nil =>
    have noBracket : (itemsText items).head? ≠ some openBracket := by
      intro head
      exact absurd (itemsText_head items _ head) (by decide)
    simp [Placeholder.Recognised, noBracket]
  | cons byte literal =>
    have long : 4 < (tailText .tag (byte :: literal) items).length ↔ ¬ (literal = [] ∧ items = []) := by
      rw [length, length_cons, ← empty, ← length_eq_zero_iff]
      omega
    rw [long]
    by_cases bracket : byte = openBracket
    · simp [Placeholder.Recognised, bracket]
    · simp [Placeholder.Recognised, bracket]

variable {placeholder : Placeholder}

section

variable (valid : ∀ path, placeholder = .key path → path.Valid ∧ Follows (literal ++ itemsText items))
include valid

/-- When a placeholder is read as the part that it is. -/
theorem raPlaceholder_part :
    (∃ next, raPlaceholder (front ++ dollar :: tailText placeholder literal items) front.length stop =
      some (placeholder.part, next)) ↔ placeholder.Recognised literal items := by
  cases placeholder with
  | capture digit =>
    rw [raPlaceholder_capture]
    simp [Placeholder.part, Placeholder.Recognised]
  | tagPart number =>
    rw [raPlaceholder_tagPart]
    simp [Placeholder.part, Placeholder.Recognised]
  | tag =>
    rw [raPlaceholder_tag]
    by_cases recognised : Placeholder.Recognised literal items .tag
    · rw [if_neg (fun bracket => (bracket_iff literal items).mp bracket recognised)]
      simp [Placeholder.part, recognised]
    · rw [if_pos ((bracket_iff literal items).mpr recognised)]
      simp [Placeholder.part, recognised]
  | key path =>
    obtain ⟨pathValid, follows⟩ := valid path rfl
    by_cases isTag : tagWord <+: path.first :: path.rest
    · have starts := (tag_begins_iff literal items follows).mpr isTag
      rw [raPlaceholder_eq, key_noDigit literal items pathValid, if_neg Bool.false_ne_true, if_pos starts]
      simp only [Placeholder.Recognised, isTag, not_true, false_and, iff_false, not_exists]
      intro next
      split <;> simp [Placeholder.part]
    · simp [raPlaceholder_key front literal items stop pathValid follows isTag, Placeholder.Recognised, isTag]

theorem raPlaceholder_arrived {next : Cursor} {stop : Int} (before : stop ≤ front.length)
    (placed : raPlaceholder (front ++ dollar :: tailText placeholder literal items) front.length stop =
      some (placeholder.part, next)) :
    Arrived placeholder (front.length + 1 + placeholder.word.length) { next with i := next.i + 1 } := by
  cases placeholder with
  | capture digit =>
    rw [raPlaceholder_capture] at placed
    obtain ⟨-, rfl⟩ := Prod.mk.inj (Option.some.inj placed)
    exact ⟨rfl, rfl, by simp only; omega⟩
  | tagPart number =>
    rw [raPlaceholder_tagPart] at placed
    obtain ⟨-, rfl⟩ := Prod.mk.inj (Option.some.inj placed)
    refine ⟨rfl, rfl, ?_⟩
    simp only [Placeholder.word, Subkey.text, tagWord, length_append, length_cons, length_nil]
    omega
  | tag =>
    rw [raPlaceholder_tag] at placed
    split at placed
    · simp [Placeholder.part] at placed
    · obtain ⟨-, rfl⟩ := Prod.mk.inj (Option.some.inj placed)
      refine ⟨rfl, rfl, ?_⟩
      simp only [Placeholder.word, tagWord, length_cons, length_nil]
      split <;> omega
  | key path =>
    obtain ⟨pathValid, follows⟩ := valid path rfl
    have recognised := (raPlaceholder_part front literal items stop valid).mp ⟨next, placed⟩
    obtain ⟨-, rfl⟩ := (raPlaceholder_key front literal items stop pathValid follows recognised.1 next).mp placed
    exact ⟨rfl, rfl, rfl⟩

end

end

end

end FluentBit.RecordAccessor
