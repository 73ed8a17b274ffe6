import FluentBit.Foundation.PackerProperties
import FluentBit.Json.Numbers
import FluentBit.Json.Objects
import FluentBit.Json.Text

/-! The tokens of the text of an object. A text is read wherever a value may stand, whatever
follows it; the tokens that are added form a tree below the token above them. -/

set_option autoImplicit false

namespace FluentBit.Json

open List Nat Option Ascii
open Msgpack (Object)

def Token.Ended (token : Token) : Prop := token.isOpen = false ∧ (token.start ≠ 0 ∨ token.stop ≠ some 0)

def Under (root : Nat) (inner : List Token) : Prop :=
  ∀ index token, inner[index]? = some token →
    token.Ended ∧ ∃ above, token.parent = some above ∧ root ≤ above ∧ above < root + 1 + index

def Nested (parent : Option Nat) (base : Nat) : List Token → Prop
  | [] => False
  | first :: inner => first.Ended ∧ first.parent = parent ∧ Under base inner

variable {root base : Nat} {parent : Option Nat} {inner new : List Token}

theorem Under.nil : Under root [] := fun index token found => by cases found

theorem Under.append (under : Under root inner) (nested : Nested (some root) (root + 1 + inner.length) new) :
    Under root (inner ++ new) := by
  intro index token found
  by_cases before : index < inner.length
  · rw [List.getElem?_append_left before] at found
    exact under index token found
  · rw [List.getElem?_append_right (Nat.le_of_not_lt before)] at found
    cases new with
    | nil => cases nested
    | cons first others =>
      obtain ⟨ended, parent, below⟩ := nested
      cases place : index - inner.length with
      | zero =>
        rw [place] at found
        cases found
        exact ⟨ended, root, parent, Nat.le_refl _, by omega⟩
      | succ place' =>
        rw [place] at found
        obtain ⟨ended, above, parent, low, high⟩ := below place' token found
        exact ⟨ended, above, parent, by omega, by omega⟩

theorem ancestor_under {front : List Token} {outer : Token} (isOpen : outer.isOpen = true) (under : Under front.length inner)
    {index fuel : Nat} (inside : index ≤ inner.length) (enough : index < fuel) :
    ancestor (front ++ outer :: inner) fuel (front.length + index) = some (front.length, outer) := by
  induction index using Nat.strongRecOn generalizing fuel with
  | ind index ih =>
    cases fuel with
    | zero => omega
    | succ fuel =>
      cases index with
      | zero => simp [ancestor, isOpen]
      | succ index =>
        have bound : index < inner.length := by omega
        obtain ⟨token, place⟩ : ∃ token, inner[index]? = some token := ⟨_, List.getElem?_eq_getElem bound⟩
        have found : (front ++ outer :: inner)[front.length + (index + 1)]? = some token := by
          rw [List.getElem?_append_right (by omega), Nat.add_sub_cancel_left, List.getElem?_cons_succ, place]
        obtain ⟨ended, above, parent, low, high⟩ := under index token place
        obtain ⟨step, rfl⟩ : ∃ step, above = front.length + step := ⟨above - front.length, by omega⟩
        rw [ancestor, found]
        simp only [ended.1, Bool.false_eq_true, if_false, parent]
        exact ih step (by omega) (by omega) (by omega)

theorem modify_middle (front : List Token) (outer : Token) (change : Token → Token) :
    (front ++ outer :: inner).modify front.length change = front ++ change outer :: inner := by
  induction front with
  | nil => rfl
  | cons token front ih => rw [cons_append, length_cons, modify_succ_cons, ih, cons_append]

namespace Parser

variable {parser : Parser} {rest : Bytes}

theorem run_step {byte : UInt8} {next : Parser} (nonzero : byte ≠ 0) (advanced : parser.advance byte rest = .ok next) :
    parser.run (byte :: rest) = next.run ((byte :: rest).drop (next.pos - parser.pos)) := by
  rw [run_cons nonzero, advanced]

def AcceptsValue (parser : Parser) : Prop :=
  ∀ token ∈ parser.superior, token.type = .array ∨ (token.type = .string ∧ token.size = 0)

theorem AcceptsValue.opens (accepts : parser.AcceptsValue) (type : Kind) : parser.opened type = .ok (parser.pushed type) := by
  rw [opened, if_neg]
  intro isObject
  rw [superiorIs, Option.any_eq_true] at isObject
  obtain ⟨token, found, isObject⟩ := isObject
  rcases accepts token found with isArray | ⟨isString, _⟩
  · simp [isArray] at isObject
  · simp [isString] at isObject

theorem AcceptsValue.primitive (accepts : parser.AcceptsValue) : parser.refusesPrimitive = false := by
  rw [refusesPrimitive, Option.any_eq_false]
  intro token found
  rcases accepts token found with isArray | ⟨isString, none⟩
  · simp [isArray]
  · simp [isString, none]

theorem run_quoted (text : Bytes) : parser.run (quoted text ++ rest) =
      (parser.leaf .string (parser.pos + 1) (parser.pos + 1 + (text.flatMap escapeByte).length)
        (parser.pos + (quoted text).length)).run rest := by
  have symbol : symbolOf quote = .quote := by decide
  have length : (quoted text).length = (text.flatMap escapeByte).length + 2 := by simp [quoted]
  have shape : quoted text ++ rest = quote :: (text.flatMap escapeByte ++ quote :: rest) := by simp [quoted]
  have advanced : parser.advance quote (text.flatMap escapeByte ++ quote :: rest) =
      .ok (parser.leaf .string (parser.pos + 1) (parser.pos + 1 + (text.flatMap escapeByte).length)
        (parser.pos + (quoted text).length)) := by
    rw [advance, symbol]
    simp only [scanString_text, Except.map]
    congr 2
    omega
  rw [shape, run_step (by decide) advanced]
  congr 1
  rw [leaf, Nat.add_sub_cancel_left, ← shape, drop_left]

theorem run_primitive {text : Bytes} (accepts : parser.AcceptsValue) (starts : ∃ byte ∈ text.head?, startsPrimitive byte = true)
    (stays : ∀ byte ∈ text, staysPrimitive byte = true) (ends : EndsHere rest) : parser.run (text ++ rest) =
      (parser.leaf .primitive parser.pos (parser.pos + text.length) (parser.pos + text.length)).run rest := by
  obtain ⟨byte, head, starts⟩ := starts
  obtain ⟨more, rfl⟩ : ∃ more, text = byte :: more := ⟨_, eq_cons_of_mem_head? head⟩
  obtain ⟨nonzero, _, symbol⟩ := primitive_byte byte starts
  have scanned := scanPrimitive_ends stays ends
  rw [cons_append] at scanned ⊢
  have advanced : parser.advance byte (more ++ rest) =
      .ok (parser.leaf .primitive parser.pos (parser.pos + (byte :: more).length) (parser.pos + (byte :: more).length)) := by
    rw [advance, symbol]
    simp [accepts.primitive, scanned, Except.map]
  rw [run_step nonzero advanced]
  congr 1
  rw [leaf, Nat.add_sub_cancel_left, ← cons_append, drop_left]

def inside (front : List Token) (outer : Token) (inner : List Token) (pos superior : Nat) : Parser where
  pos := pos
  tokens := front ++ outer :: inner
  toksuper := some superior

variable {front : List Token} {outer : Token}

@[simp] theorem inside_get : (front ++ outer :: inner)[front.length]? = some outer := by simp

theorem superior_inside (pos : Nat) :
    (inside front outer inner pos front.length).superior = some outer := by simp [inside, superior]

theorem counted_inside (pos : Nat) :
    (inside front outer inner pos front.length).counted = front ++ { outer with size := outer.size + 1 } :: inner := by
  simp [inside, counted, modify_middle]

theorem run_closes {type : Kind} {closing : UInt8} (symbol : symbolOf closing = .closes type) (nonzero : closing ≠ 0)
    (isOpen : outer.isOpen = true) (isType : outer.type = type) (under : Under front.length inner) (pos superior : Nat) :
    (inside front outer inner pos superior).run (closing :: rest) =
      ({ pos := pos + 1, tokens := front ++ { outer with stop := some (pos + 1) } :: inner, toksuper := outer.parent } :
        Parser).run rest := by
  obtain rfl := isType
  have walk := @ancestor_under inner front outer isOpen under inner.length (front ++ outer :: inner).length
    (Nat.le_refl _) (by simp; omega)
  have last : (front ++ outer :: inner).length - 1 = front.length + inner.length := by
    rw [length_append, length_cons]
    omega
  have advanced : (inside front outer inner pos superior).advance closing rest =
      .ok { pos := pos + 1, tokens := front ++ { outer with stop := some (pos + 1) } :: inner, toksuper := outer.parent } := by
    rw [advance, symbol]
    simp only [closed, inside, last, walk, isOpen, if_true, ne_eq, not_true, if_false, ended]
    rw [modify_middle]
  rw [run_step nonzero advanced]
  simp [inside]

theorem run_separator (isArray : outer.type = .array) (first : Bool) (pos : Nat) :
    (inside front outer inner pos front.length).run (separator first ++ rest) =
      (inside front outer inner (pos + (separator first).length) front.length).run rest := by
  cases first with
  | true => rfl
  | false =>
    have symbol : symbolOf comma = .comma := by decide
    have advanced : (inside front outer inner pos front.length).advance comma rest =
        .ok (inside front outer inner (pos + 1) front.length) := by
      rw [advance, symbol]
      simp only [behindComma, superior_inside, isArray, true_or, if_true]
      rfl
    have one : (inside front outer inner (pos + 1) front.length).pos - (inside front outer inner pos front.length).pos = 1 := by
      simp [inside]
    exact (run_step (by decide) advanced).trans (by rw [one]; rfl)

end Parser

def isPrimitive : Object → Bool
  | .nil | .boolean _ | .positive _ | .negative _ => true
  | _ => false

variable {atof : Bytes → BitVec 64} {text rest : Bytes} {object : Object}

def Reads (atof : Bytes → BitVec 64) (text : Bytes) (object : Object) : Prop :=
  ∀ (parser : Parser) (rest : Bytes), parser.AcceptsValue → (isPrimitive object = true → EndsHere rest) →
    ∃ new, parser.run (text ++ rest) =
        ({ pos := parser.pos + text.length, tokens := parser.counted ++ new, toksuper := parser.toksuper } : Parser).run rest ∧
      Nested parser.toksuper parser.tokens.length new ∧
      ∀ js, js.drop parser.pos = text ++ rest → tokenBytes atof js new = some (Msgpack.pack object)

variable {js : Bytes} {pos : Nat}

theorem tokenBytes_single {bytes : Bytes} {token : Token} {stop : Nat} (ends : token.stop = some stop)
    (packs : packToken atof (js.drop token.start) (stop - token.start) token = some bytes) :
    tokenBytes atof js [token] = some bytes := by
  simp [tokenBytes, ends, packs]

theorem packToken_quoted {parent : Option Nat} {size : Nat} (here : js.drop pos = quoted text ++ rest) :
    packToken atof (js.drop (pos + 1)) (pos + 1 + (text.flatMap escapeByte).length - (pos + 1))
        { type := .string, start := pos + 1, stop := some (pos + 1 + (text.flatMap escapeByte).length), size, parent } =
      some (Msgpack.packStr text) := by
  have behind : js.drop (pos + 1) = text.flatMap escapeByte ++ (quote :: rest) := by
    rw [← drop_drop, here]
    simp [quoted]
  rw [behind, Nat.add_sub_cancel_left]
  simp [packToken, unescape_text]

theorem reads_quoted : Reads atof (quoted text) (.str text) := by
  intro parser rest accepts ends
  refine ⟨_, parser.run_quoted text, ⟨⟨rfl, .inl (succ_ne_zero _)⟩, rfl, .nil⟩, ?_⟩
  intro js here
  exact tokenBytes_single rfl (packToken_quoted here)

theorem reads_primitive (isPrim : isPrimitive object = true) (starts : ∃ byte ∈ text.head?, startsPrimitive byte = true)
    (stays : ∀ byte ∈ text, staysPrimitive byte = true)
    (packs : ∀ rest, EndsHere rest → packPrimitive atof (text ++ rest) text.length = Msgpack.pack object) :
    Reads atof text object := by
  intro parser rest accepts ends
  have nonempty : 0 < text.length := by
    obtain ⟨byte, head, _⟩ := starts
    exact length_pos_of_mem (mem_of_mem_head? head)
  refine ⟨_, parser.run_primitive accepts starts stays (ends isPrim), ⟨⟨rfl, .inr ?_⟩, rfl, .nil⟩, ?_⟩
  · simp only [ne_eq, Option.some.injEq]
    omega
  · intro js here
    apply tokenBytes_single rfl
    simp [packToken, here, packs rest (ends isPrim)]

/-! ### Containers -/

theorem endsHere_cons {byte : UInt8} (ends : endsPrimitive byte = true) : EndsHere (byte :: rest) := ⟨byte, rfl, ends⟩

theorem endsHere_items {items : List Object} (ends : EndsHere rest) : EndsHere (itemsText false items ++ rest) := by
  cases items with
  | nil => exact ends
  | cons item items => exact endsHere_cons (by decide)

theorem tokenBytes_join {first second : Bytes} {tokens more : List Token}
    (left : tokenBytes atof js tokens = some first) (right : tokenBytes atof js more = some second) :
    tokenBytes atof js (tokens ++ more) = some (first ++ second) := by
  rw [tokenBytes_append, left, right]
  rfl

theorem drop_further {front behind : Bytes} (here : js.drop pos = front ++ behind) :
    js.drop (pos + front.length) = behind := by
  rw [← drop_drop, here, drop_left]

section

variable {front : List Token} {outer : Token}

theorem reads_items {items : List Object} (each : ∀ item ∈ items, Reads atof (jsonText item) item) (first : Bool)
    (isArray : outer.type = .array) (under : Under front.length inner) (ends : EndsHere rest) (pos : Nat) :
    ∃ more, (Parser.inside front outer inner pos front.length).run (itemsText first items ++ rest) =
        (Parser.inside front { outer with size := outer.size + items.length } (inner ++ more)
          (pos + (itemsText first items).length) front.length).run rest ∧ Under front.length (inner ++ more) ∧
      ∀ js, js.drop pos = itemsText first items ++ rest → tokenBytes atof js more = some (Msgpack.packItems items) := by
  induction items generalizing first outer inner pos with
  | nil =>
    refine ⟨[], ?_, ?_, fun js here => rfl⟩
    · simp [itemsText]
    · rw [append_nil]
      exact under
  | cons item items ih =>
    have accepts : (Parser.inside front outer inner (pos + (separator first).length) front.length).AcceptsValue := by
      intro token found
      rw [Parser.superior_inside, mem_some_iff] at found
      rw [← found]
      exact .inl isArray
    obtain ⟨new, ran, nested, bytes⟩ := each item (mem_cons_self ..) _ (itemsText false items ++ rest) accepts
      fun _ => endsHere_items ends
    have width : (Parser.inside front outer inner (pos + (separator first).length) front.length).tokens.length =
        front.length + 1 + inner.length := by
      simp only [Parser.inside, length_append, length_cons]
      omega
    rw [width] at nested
    rw [Parser.counted_inside] at ran
    obtain ⟨more, ranMore, underMore, bytesMore⟩ := @ih (inner ++ new) { outer with size := outer.size + 1 }
      (fun other member => each other (mem_cons_of_mem _ member)) false isArray (under.append nested)
      (pos + (separator first).length + (jsonText item).length)
    refine ⟨new ++ more, ?_, ?_, ?_⟩
    · rw [itemsText, append_assoc, append_assoc, Parser.run_separator isArray, ran]
      have state : ({ pos := pos + (separator first).length + (jsonText item).length
                      tokens := front ++ { outer with size := outer.size + 1 } :: inner ++ new
                      toksuper := some front.length } : Parser) =
          .inside front { outer with size := outer.size + 1 } (inner ++ new)
            (pos + (separator first).length + (jsonText item).length) front.length := by
        simp [Parser.inside]
      refine (congrArg (fun state => Parser.run state (itemsText false items ++ rest)) state).trans ?_
      rw [ranMore]
      simp [Nat.add_assoc, Nat.add_comm 1]
    · rw [← append_assoc]
      exact underMore
    · intro js here
      rw [itemsText, append_assoc, append_assoc] at here
      have atItem := drop_further here
      exact tokenBytes_join (bytes js atItem) (bytesMore js (drop_further atItem))

def Awaits (first : Bool) (front : List Token) (outer : Token) (inner : List Token) (superior : Nat) : Prop :=
  if first then superior = front.length
  else ∃ key, (front ++ outer :: inner)[superior]? = some key ∧ key.type = .string ∧ key.parent = some front.length

theorem run_awaits {first : Bool} {superior : Nat} (awaits : Awaits first front outer inner superior) (pos : Nat) :
    (Parser.inside front outer inner pos superior).run (separator first ++ rest) =
      (Parser.inside front outer inner (pos + (separator first).length) front.length).run rest := by
  cases first with
  | true =>
    obtain rfl : superior = front.length := awaits
    rfl
  | false =>
    obtain ⟨key, found, isString, parent⟩ := awaits
    have symbol : symbolOf comma = .comma := by decide
    have above : (Parser.inside front outer inner pos superior).superior = some key := found
    have advanced : (Parser.inside front outer inner pos superior).advance comma rest =
        .ok (.inside front outer inner (pos + 1) front.length) := by
      rw [Parser.advance, symbol]
      simp only [Parser.behindComma, above, isString, parent]
      rfl
    have one : (Parser.inside front outer inner (pos + 1) front.length).pos -
        (Parser.inside front outer inner pos superior).pos = 1 := by simp [Parser.inside]
    exact (Parser.run_step (by decide) advanced).trans (by rw [one]; rfl)

def keyToken (root pos length size : Nat) : Token where
  type := .string
  start := pos + 1
  stop := some (pos + 1 + length)
  size := size
  parent := some root

theorem run_key (text : Bytes) (pos : Nat) :
    (Parser.inside front outer inner pos front.length).run (quoted text ++ colon :: rest) =
      (Parser.inside front { outer with size := outer.size + 1 }
        (inner ++ [keyToken front.length pos (text.flatMap escapeByte).length 0])
        (pos + ((quoted text).length + 1)) (front.length + 1 + inner.length)).run rest := by
  have symbol : symbolOf colon = .colon := by decide
  have state : (Parser.inside front outer inner pos front.length).leaf .string (pos + 1)
      (pos + 1 + (text.flatMap escapeByte).length) (pos + (quoted text).length) =
      .inside front { outer with size := outer.size + 1 }
        (inner ++ [keyToken front.length pos (text.flatMap escapeByte).length 0]) (pos + (quoted text).length)
        front.length := by
    rw [Parser.leaf, Parser.counted_inside]
    simp [Parser.inside, keyToken]
  have ran := @Parser.run_quoted (.inside front outer inner pos front.length) (colon :: rest) text
  have last : (front ++ { outer with size := outer.size + 1 } ::
      (inner ++ [keyToken front.length pos (text.flatMap escapeByte).length 0])).length - 1 =
      front.length + 1 + inner.length := by
    simp only [length_append, length_cons, length_nil]
    omega
  refine ran.trans ((congrArg (fun state => Parser.run state (colon :: rest)) state).trans ?_)
  rw [Parser.run_step (by decide) (by rw [Parser.advance, symbol])]
  have one : pos + ((quoted text).length + 1) - (pos + (quoted text).length) = 1 := by omega
  simp only [Parser.moved, Parser.inside, Parser.lastIndex, last, append_eq_nil_iff, reduceCtorEq, and_false, if_false,
    Nat.add_assoc]
  rw [one]
  rfl

theorem reads_value {value : Object} (reads : Reads atof (jsonText value) value) (ends : EndsHere rest) (keyPos length pos : Nat) :
    ∃ new, (Parser.inside front outer (inner ++ [keyToken front.length keyPos length 0]) pos
          (front.length + 1 + inner.length)).run (jsonText value ++ rest) =
        (Parser.inside front outer (inner ++ keyToken front.length keyPos length 1 :: new) (pos + (jsonText value).length)
          (front.length + 1 + inner.length)).run rest ∧ Under (front.length + 1 + inner.length) new ∧
      ∀ js, js.drop pos = jsonText value ++ rest → tokenBytes atof js new = some (Msgpack.pack value) := by
  have place : (front ++ outer :: inner).length = front.length + 1 + inner.length := by
    simp only [length_append, length_cons]
    omega
  have shape (key : Token) (more : List Token) :
      front ++ outer :: (inner ++ key :: more) = (front ++ outer :: inner) ++ key :: more := by simp
  have above : (Parser.inside front outer (inner ++ [keyToken front.length keyPos length 0]) pos
      (front.length + 1 + inner.length)).superior = some (keyToken front.length keyPos length 0) := by
    simp only [Parser.superior, Parser.inside, bind_some, shape]
    rw [← place, Parser.inside_get]
  have accepts : (Parser.inside front outer (inner ++ [keyToken front.length keyPos length 0]) pos
      (front.length + 1 + inner.length)).AcceptsValue := by
    intro token found
    rw [above, mem_some_iff] at found
    rw [← found]
    exact .inr ⟨rfl, rfl⟩
  have counted : (Parser.inside front outer (inner ++ [keyToken front.length keyPos length 0]) pos
      (front.length + 1 + inner.length)).counted = front ++ outer :: (inner ++ [keyToken front.length keyPos length 1]) := by
    simp only [Parser.counted, Parser.inside, shape]
    rw [← place, modify_middle]
    rfl
  obtain ⟨new, ran, nested, bytes⟩ := reads _ rest accepts fun _ => ends
  have width : (Parser.inside front outer (inner ++ [keyToken front.length keyPos length 0]) pos
      (front.length + 1 + inner.length)).tokens.length = front.length + 1 + inner.length + 1 := by
    simp only [Parser.inside, length_append, length_cons, length_nil]
    omega
  rw [width] at nested
  refine ⟨new, ?_, Under.append .nil nested, bytes⟩
  rw [ran, counted]
  simp [Parser.inside]

variable {entries : List (Object × Object)}

theorem endsHere_entries (ends : EndsHere rest) : EndsHere (entriesText false entries ++ rest) := by
  cases entries with
  | nil => exact ends
  | cons entry entries => exact endsHere_cons (by decide)

theorem reads_entries (keys : ∀ entry ∈ entries, ∃ text, entry.1 = .str text)
    (values : ∀ entry ∈ entries, Reads atof (jsonText entry.2) entry.2) {first : Bool} {superior : Nat}
    (awaits : Awaits first front outer inner superior) (under : Under front.length inner) (ends : EndsHere rest)
    (pos : Nat) : ∃ more last, (Parser.inside front outer inner pos superior).run (entriesText first entries ++ rest) =
        (Parser.inside front { outer with size := outer.size + entries.length } (inner ++ more)
          (pos + (entriesText first entries).length) last).run rest ∧ Under front.length (inner ++ more) ∧
      ∀ js, js.drop pos = entriesText first entries ++ rest →
        tokenBytes atof js more = some (Msgpack.packEntries entries) := by
  induction entries generalizing first outer inner superior pos with
  | nil =>
    refine ⟨[], superior, ?_, ?_, fun js here => rfl⟩
    · simp [entriesText]
    · rw [append_nil]
      exact under
  | cons entry entries ih =>
    obtain ⟨key, value⟩ := entry
    obtain ⟨text, isText⟩ := keys (key, value) (mem_cons_self ..)
    obtain rfl : key = .str text := isText
    have shape : entriesText first ((.str text, value) :: entries) ++ rest = separator first ++
        (quoted text ++ colon :: (jsonText value ++ (entriesText false entries ++ rest))) := by
      simp [entriesText, keyText]
    -- the comma, the key and the colon, and the value
    have toKey := @run_awaits inner (quoted text ++ colon :: (jsonText value ++ (entriesText false entries ++ rest)))
      front outer first superior awaits pos
    have toValue := @run_key inner (jsonText value ++ (entriesText false entries ++ rest)) front outer text
      (pos + (separator first).length)
    obtain ⟨new, ran, below, bytes⟩ := @reads_value inner atof (entriesText false entries ++ rest) front
      { outer with size := outer.size + 1 } value (values (.str text, value) (mem_cons_self ..))
      (endsHere_entries ends) (pos + (separator first).length) (text.flatMap escapeByte).length
      (pos + (separator first).length + ((quoted text).length + 1))
    have nested : Nested (some front.length) (front.length + 1 + inner.length)
        (keyToken front.length (pos + (separator first).length) (text.flatMap escapeByte).length 1 :: new) :=
      ⟨⟨rfl, .inl (succ_ne_zero _)⟩, rfl, below⟩
    have awaitsNext : Awaits false front { outer with size := outer.size + 1 }
        (inner ++ keyToken front.length (pos + (separator first).length) (text.flatMap escapeByte).length 1 :: new)
        (front.length + 1 + inner.length) := by
      refine ⟨keyToken front.length (pos + (separator first).length) (text.flatMap escapeByte).length 1, ?_, rfl, rfl⟩
      have place : front.length + 1 + inner.length - front.length = inner.length + 1 := by omega
      rw [List.getElem?_append_right (by omega), place, List.getElem?_cons_succ, Parser.inside_get]
    obtain ⟨more, last, ranMore, underMore, bytesMore⟩ := ih
      (fun other member => keys other (mem_cons_of_mem _ member))
      (fun other member => values other (mem_cons_of_mem _ member)) awaitsNext (under.append nested)
      (pos + (separator first).length + ((quoted text).length + 1) + (jsonText value).length)
    refine ⟨keyToken front.length (pos + (separator first).length) (text.flatMap escapeByte).length 1 :: new ++ more, last,
      ?_, ?_, ?_⟩
    · rw [shape, toKey, toValue, ran, ranMore]
      simp [entriesText, keyText, Nat.add_assoc, Nat.add_comm 1]
    · rw [← append_assoc]
      exact underMore
    · intro js here
      rw [shape] at here
      have atKey := drop_further here
      have keyBytes : tokenBytes atof js [keyToken front.length (pos + (separator first).length)
          (text.flatMap escapeByte).length 1] = some (Msgpack.packStr text) :=
        tokenBytes_single rfl (packToken_quoted atKey)
      have atValue : js.drop (pos + (separator first).length + ((quoted text).length + 1)) =
          jsonText value ++ (entriesText false entries ++ rest) := by
        rw [← Nat.add_assoc, ← drop_drop, drop_further atKey]
        rfl
      have entryBytes := tokenBytes_join keyBytes (bytes js atValue)
      exact tokenBytes_join entryBytes (bytesMore js (drop_further atValue))

end

theorem reads_container {opening closing : UInt8} {type : Kind} {count : Nat} {body head members : Bytes}
    (opens : symbolOf opening = .opens type) (closes : symbolOf closing = .closes type)
    (ordinary : opening ≠ 0 ∧ closing ≠ 0) (ends : endsPrimitive closing = true)
    (packs : Msgpack.pack object = head ++ members)
    (packsHead : ∀ (js : Bytes) (length : Nat) (token : Token), token.type = type → token.size = count →
      packToken atof js length token = some head)
    (reads : ∀ (front : List Token) (outer : Token) (pos : Nat) (rest : Bytes), outer.type = type → EndsHere rest →
      ∃ more last, (Parser.inside front outer [] pos front.length).run (body ++ rest) =
          (Parser.inside front { outer with size := outer.size + count } more (pos + body.length) last).run rest ∧
        Under front.length more ∧ ∀ js, js.drop pos = body ++ rest → tokenBytes atof js more = some members) :
    Reads atof (opening :: (body ++ [closing])) object := by
  intro parser rest accepts _
  have shape : opening :: (body ++ [closing]) ++ rest = opening :: (body ++ closing :: rest) := by simp
  have pushed : parser.pushed type = .inside parser.counted
      { type, start := parser.pos, stop := none, size := 0, parent := parser.toksuper } [] (parser.pos + 1)
      parser.counted.length := by
    simp [Parser.pushed, Parser.inside]
  have advanced : parser.advance opening (body ++ closing :: rest) = .ok (parser.pushed type) := by
    rw [Parser.advance, opens]
    exact accepts.opens type
  have one : (parser.pushed type).pos - parser.pos = 1 := by simp [Parser.pushed]
  obtain ⟨more, last, ran, under, bytes⟩ := reads parser.counted
    { type, start := parser.pos, stop := none, size := 0, parent := parser.toksuper } (parser.pos + 1) (closing :: rest)
    rfl (endsHere_cons ends)
  have ended := @Parser.run_closes more rest parser.counted
    { type, start := parser.pos, stop := none, size := 0 + count, parent := parser.toksuper } type closing closes ordinary.2
    rfl rfl under (parser.pos + 1 + body.length) last
  have length : parser.pos + (opening :: (body ++ [closing])).length = parser.pos + 1 + body.length + 1 := by
    simp only [length_cons, length_append, length_nil]
    omega
  let whole : Token :=
    { type, start := parser.pos, stop := some (parser.pos + 1 + body.length + 1), size := 0 + count, parent := parser.toksuper }
  refine ⟨whole :: more, ?_, ?_, ?_⟩
  · rw [shape, Parser.run_step ordinary.1 advanced, one, drop_succ_cons, drop_zero, pushed, ran, ended, length]
  · rw [Parser.length_counted] at under
    exact ⟨⟨rfl, .inr fun zero => absurd (Option.some.inj zero) (succ_ne_zero _)⟩, rfl, under⟩
  · intro js here
    rw [shape] at here
    have inside : js.drop (parser.pos + 1) = body ++ closing :: rest := by
      rw [← drop_drop, here]
      rfl
    rw [packs]
    exact tokenBytes_join (tokenBytes_single rfl (packsHead _ _ _ rfl (Nat.zero_add count))) (bytes js inside)

theorem packPrimitive_number {byte : UInt8} {more : Bytes} (head : byte = minus ∨ isDigit byte = true)
    (digits : ∀ other ∈ more, isDigit other = true) (ends : EndsHere rest) :
    packPrimitive atof (byte :: more ++ rest) (byte :: more).length = Msgpack.packInt (atoll (byte :: more ++ rest)) := by
  have symbols : ∀ other ∈ byte :: more, other = minus ∨ isDigit other = true := by
    intro other member
    rcases mem_cons.mp member with rfl | member
    · exact head
    · exact .inr (digits other member)
  have noWord : byte ≠ letter 'f' ∧ byte ≠ letter 't' ∧ byte ≠ letter 'n' := by
    rcases head with rfl | isDigit
    · decide
    · obtain ⟨_, _, _, _, _, _, _, words⟩ := digit_facts byte isDigit
      exact words
  have noFloat := isFloat_number symbols ends
  simp only [packPrimitive, cons_append, List.head?_cons, Option.some.injEq, noWord, if_false]
  rw [← cons_append, noFloat]
  simp

theorem reads_decimal {u64 : BitVec 64} (inRange : u64.toNat < 2 ^ 63) : Reads atof (decimal u64.toNat) (.positive u64) := by
  obtain ⟨byte, more, shape, isDigit⟩ := decimal_cons u64.toNat
  have digits : ∀ other ∈ decimal u64.toNat, Ascii.isDigit other = true := fun other => decimal_isDigit
  apply reads_primitive rfl (decimal_text _).1 (decimal_text _).2
  intro rest ends
  have value := atoll_decimal inRange ends
  rw [shape] at value digits ⊢
  rw [packPrimitive_number (.inr isDigit) (fun other member => digits other (mem_cons_of_mem _ member)) ends, value,
    packInt_ofNat, Msgpack.pack]

theorem reads_negative {i64 : BitVec 64} (below : i64.toInt < 0) : Reads atof (signedDecimal i64.toInt) (.negative i64) := by
  have shape : signedDecimal i64.toInt = minus :: decimal i64.toInt.natAbs := if_pos below
  have digits : ∀ other ∈ decimal i64.toInt.natAbs, isDigit other = true := fun other => decimal_isDigit
  apply reads_primitive rfl (signedDecimal_text below).1 (signedDecimal_text below).2
  intro rest ends
  have value := atoll_signed below (BitVec.le_toInt i64) ends
  rw [shape] at value ⊢
  rw [packPrimitive_number (.inl rfl) digits ends, value, Msgpack.pack]

theorem Textual.reads (textual : Textual object) : Reads atof (jsonText object) object := by
  induction textual with
  | nil =>
    apply reads_primitive rfl ⟨_, rfl, by decide⟩ (forall_mem_of_all (by decide))
    intro rest ends
    rfl
  | boolean value =>
    cases value with
    | false | true =>
      exact reads_primitive rfl ⟨_, rfl, by decide⟩ (forall_mem_of_all (by decide)) fun rest ends => rfl
  | positive inRange => exact reads_decimal inRange
  | negative below => exact reads_negative below
  | str valid short => exact reads_quoted
  | @array items few each ih =>
    have packsHead : ∀ (js : Bytes) (length : Nat) (token : Token), token.type = .array → token.size = items.length →
        packToken atof js length token = some (Msgpack.packArray items.length) := by
      intro js length token isArray size
      rw [packToken, isArray, size]
    apply reads_container (by decide) (by decide) (by decide) (by decide) rfl packsHead
    intro front outer pos rest isArray ends
    obtain ⟨more, ran⟩ := reads_items ih true isArray .nil ends pos
    exact ⟨more, front.length, ran⟩
  | @map entries few keys distinct values ih =>
    have packsHead : ∀ (js : Bytes) (length : Nat) (token : Token), token.type = .object → token.size = entries.length →
        packToken atof js length token = some (Msgpack.packMap entries.length) := by
      intro js length token isObject size
      rw [packToken, isObject, size]
    have texts : ∀ entry ∈ entries, ∃ text, entry.1 = .str text := by
      intro entry member
      obtain ⟨text, _, _, isText⟩ := keys entry member
      exact ⟨text, isText⟩
    apply reads_container (by decide) (by decide) (by decide) (by decide) rfl packsHead
    intro front outer pos rest isObject ends
    have awaits : Awaits true front outer [] front.length := rfl
    exact reads_entries texts ih awaits .nil ends pos

end FluentBit.Json

/-! From objects to text and back. What is written of an object is read as that object, unless it
is nothing, a boolean or a number on its own: a primitive is complete only when something follows. -/

namespace FluentBit.Json

open List Ascii
open Msgpack (Object)

variable {text32 : BitVec 32 → Bytes} {text64 : BitVec 64 → Bytes} {atof : Bytes → BitVec 64}
  {object : Object} {text : Bytes}

def RoundTrips (text32 : BitVec 32 → Bytes) (text64 : BitVec 64 → Bytes) (atof : Bytes → BitVec 64)
    (object : Object) : Prop :=
  ∃ text, (∀ size, text.length + 2 ≤ size → msgpackToJson text32 text64 size object = some text) ∧
    ∃ packing, packJson atof text = some packing ∧
      ∀ limit, Msgpack.depth object ≤ limit → Msgpack.unpack limit packing.bytes = .done object []

theorem Textual.packable (textual : Textual object) : Msgpack.Packable object := by
  induction textual with
  | nil => exact .nil
  | boolean value => exact .boolean value
  | positive inRange => exact .positive _
  | negative below => exact .negative below
  | str valid short => exact .str short
  | array few each ih => exact .array few ih
  | map few keys distinct values ih =>
    apply Msgpack.Packable.map few _ ih
    intro entry member
    obtain ⟨text, _, short, isText⟩ := keys entry member
    rw [isText]
    exact .str short

theorem packJson_of_run {tokens : List Token} {pos : Nat} {bytes : Bytes}
    (ran : Parser.init.run text = (none, { pos, tokens, toksuper := none })) (nonempty : tokens ≠ [])
    (ended : ∀ token ∈ tokens, token.Ended) (packs : tokenBytes atof text tokens = some bytes) :
    ∃ packing, packJson atof text = some packing ∧ packing.bytes = bytes := by
  have allClosed : tokens.any (·.isOpen) = false := by
    rw [any_eq_false]
    intro token member
    simp [(ended token member).1]
  have tokenised : jsonTokenise text .init =
      (none, { PackState.init with parser := { pos, tokens, toksuper := none }, tokensCount := tokens.length }) := by
    have parsed : Parser.init.parse text = (.ok tokens.length, { pos, tokens, toksuper := none }) := by
      rw [Parser.init_parse, ran]
      simp [Parser.finished, allClosed]
    rw [jsonTokenise, PackState.init, parsed]
    simp
  obtain ⟨records, packed⟩ := @packTokens_eq atof tokens text { bytes := [], lastByte := 0, records := 0 } bytes
    (fun token member => (ended token member).2) packs
  refine ⟨{ bytes := [] ++ bytes, lastByte := lastTop 0 tokens, records }, ?_, nil_append bytes⟩
  rw [packJson, tokenised]
  simp only [take_length, tokensToMsgpack, nonempty, if_false]
  exact packed

theorem accepts_init : Parser.init.AcceptsValue := by
  intro token found
  cases found

theorem Textual.packs (textual : Textual object) (isContainer : isPrimitive object = false) :
    ∃ packing, packJson atof (jsonText object) = some packing ∧ packing.bytes = Msgpack.pack object := by
  obtain ⟨new, ran, nested, bytes⟩ := @Textual.reads atof object textual .init [] accepts_init (by simp [isContainer])
  rw [append_nil] at ran bytes
  have ended : ∀ token ∈ new, token.Ended := by
    intro token member
    cases new with
    | nil => cases member
    | cons first inner =>
      rcases mem_cons.mp member with rfl | member
      · exact nested.1
      · obtain ⟨index, place⟩ := mem_iff_getElem?.mp member
        exact (nested.2.2 index token place).1
  have nonempty : new ≠ [] := by
    rintro rfl
    exact nested
  exact packJson_of_run ran nonempty ended (bytes (jsonText object) rfl)

theorem scanPrimitive_open (stays : ∀ byte ∈ text, staysPrimitive byte = true) : scanPrimitive text = .error .part := by
  induction text with
  | nil => rfl
  | cons byte text ih =>
    obtain ⟨nonzero, goes, ordinary⟩ := staysPrimitive_facts (stays byte (mem_cons_self ..))
    rw [scanPrimitive, if_neg nonzero, if_neg (by simp [goes]), if_neg ordinary,
      ih fun other member => stays other (mem_cons_of_mem _ member)]
    rfl

theorem packJson_primitive (starts : ∃ byte ∈ text.head?, startsPrimitive byte = true)
    (stays : ∀ byte ∈ text, staysPrimitive byte = true) : packJson atof text = none := by
  obtain ⟨byte, head, starts⟩ := starts
  obtain ⟨more, rfl⟩ : ∃ more, text = byte :: more := ⟨_, eq_cons_of_mem_head? head⟩
  obtain ⟨nonzero, _, symbol⟩ := primitive_byte byte starts
  have failed : Parser.init.advance byte more = .error .part := by
    rw [Parser.advance, symbol]
    simp only [accepts_init.primitive, Bool.false_eq_true, if_false, scanPrimitive_open stays]
    rfl
  have ran : Parser.init.run (byte :: more) = (some .part, .init) := by
    rw [Parser.run_cons nonzero, failed]
  have parsed : Parser.init.parse (byte :: more) = (.error .part, .init) := by
    rw [Parser.init_parse, ran]
    rfl
  rw [packJson, jsonTokenise, PackState.init, parsed]

theorem primitive_text (textual : Textual object) (isPrim : isPrimitive object = true) :
    (∃ byte ∈ (jsonText object).head?, startsPrimitive byte = true) ∧
      ∀ byte ∈ jsonText object, staysPrimitive byte = true := by
  cases textual with
  | nil => exact ⟨⟨_, rfl, by decide⟩, forall_mem_of_all (by decide)⟩
  | boolean value =>
    cases value with
    | false | true => exact ⟨⟨_, rfl, by decide⟩, forall_mem_of_all (by decide)⟩
  | positive inRange => exact decimal_text _
  | negative below => exact signedDecimal_text below
  | str | array | map => cases isPrim

theorem not_roundTrips (textual : Textual object) (isPrim : isPrimitive object = true) :
    ¬ RoundTrips text32 text64 atof object := by
  rintro ⟨text, written, packing, packed, _⟩
  have same : text = jsonText object := by
    have fromText := written (text.length + (jsonText object).length + 2) (by omega)
    have room : (jsonText object).length + 2 ≤ text.length + (jsonText object).length + 2 := by omega
    rw [textual.toJson room] at fromText
    exact (Option.some.inj fromText).symm
  obtain ⟨starts, stays⟩ := primitive_text textual isPrim
  rw [same, packJson_primitive starts stays] at packed
  cases packed

/-- An object is read back from its text if and only if it is a string, an array or a map. -/
theorem roundTrips_iff (textual : Textual object) : RoundTrips text32 text64 atof object ↔ isPrimitive object = false := by
  constructor
  · intro roundTrips
    cases isPrim : isPrimitive object with
    | false => rfl
    | true => exact absurd roundTrips (not_roundTrips textual isPrim)
  · intro isContainer
    obtain ⟨packing, packed, bytes⟩ := textual.packs isContainer
    refine ⟨jsonText object, fun size room => textual.toJson room, packing, packed, ?_⟩
    intro limit shallow
    have unpacked := Msgpack.unpack_pack textual.packable shallow []
    rw [append_nil] at unpacked
    rw [bytes, unpacked]

/-- A map with a string as key and an array of a negative number and nothing as value. -/
theorem roundTrips_map : Textual (.map [(.str [0xc3, 0xa9], .array [.negative (-5), .nil])]) ∧
    RoundTrips (fun _ => []) (fun _ => []) (fun _ => 0) (.map [(.str [0xc3, 0xa9], .array [.negative (-5), .nil])]) := by
  have textual : Textual (.map [(.str [0xc3, 0xa9], .array [.negative (-5), .nil])]) := by
    apply Textual.map (by decide)
    · intro entry member
      rw [mem_singleton] at member
      exact ⟨[0xc3, 0xa9], ⟨['é'], by decide⟩, by decide, by rw [member]⟩
    · simp
    · intro entry member
      rw [mem_singleton] at member
      rw [member]
      apply Textual.array (by decide)
      intro item inside
      rcases mem_cons.mp inside with rfl | inside
      · exact .negative (by decide)
      · rw [mem_singleton] at inside
        rw [inside]
        exact .nil
  exact ⟨textual, (roundTrips_iff textual).mpr rfl⟩

theorem nil_not_read : ¬ ∀ object, Textual object → RoundTrips (fun _ => []) (fun _ => []) (fun _ => 0) object := by
  intro all
  exact not_roundTrips .nil rfl (all _ .nil)

end FluentBit.Json
