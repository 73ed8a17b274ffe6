import FluentBit.Json.Unescape
import FluentBit.Parsers.KeyValue

/-! Keys with values behind blanks, after `src/flb_parser_logfmt.c`. -/

set_option autoImplicit false

namespace FluentBit.KeyValue

open List Nat Option Ascii
open Msgpack (Object)

/-- The table `ident_byte` -/
def identByte (byte : UInt8) : Bool := 0x20 < byte && byte != 0x22 && byte != 0x3d

def quotedValue : Bytes → Bytes × Bool × Bytes
  | [] => ([], false, [])
  | [byte] =>
    if byte = backslash then ([byte], true, []) else if byte = quote then ([], false, [byte]) else ([byte], false, [])
  | byte :: next :: c =>
    if byte = backslash then
      let (value, _, left) := quotedValue c
      (byte :: next :: value, true, left)
    else if byte = quote then ([], false, byte :: next :: c)
    else
      let (value, escaped, left) := quotedValue (next :: c)
      (byte :: value, escaped, left)

def logfmtValue (key : Bytes) : Bytes → Pair × Bytes
  | [] => ({ key, value := [], set := false }, [])
  | byte :: c =>
    if byte ≠ letter '=' then ({ key, value := [], set := false }, byte :: c)
    else
      match c with
      | [] => ({ key, value := [] }, [])
      | byte :: c =>
        if byte = quote then
          let (value, escaped, c) := quotedValue c
          ({ key, value, quoted := true, escaped }, if c.head? = some quote then c.tail else c)
        else
          ({ key, value := (byte :: c).takeWhile identByte }, (byte :: c).dropWhile identByte)

/-- A turn of `logfmt_parser` -/
def logfmtTurn (c : Bytes) : Option Turn :=
  let c := c.dropWhile fun byte => !identByte byte
  if c = [] then some (.stop [])
  else do
    let key := c.takeWhile identByte
    let (pair, c) := logfmtValue key (c.dropWhile identByte)
    let (more, c) ← lineEnd c
    pure (.next (if key = [] then none else some pair) more c)

def plainValue (plain : Json.PlainChar) (pair : Pair) : Object :=
  if pair.value = [] then if pair.quoted then .str [] else .boolean true
  else if pair.escaped then .str ((Json.unescapeStringUtf8On plain pair.value).takeWhile (· != 0))
  else .str pair.value

def packLogfmt (plain : Json.PlainChar) (numbers : Numbers) (types : List ParserType) (pair : Pair) : Object × Object :=
  if types.length ≠ 0 then flbParserTypecast numbers types pair.key pair.value
  else (.str pair.key, plainValue plain pair)

def flbParserLogfmtDo {Time : Type} (parser : Parser Time) (plain : Json.PlainChar) (numbers : Numbers)
    (types : List ParserType) (inBuf : Bytes) : Option (Option (Record (Object × Object) Time)) :=
  parserDo parser logfmtTurn (packLogfmt plain numbers types) inBuf

/-! ### Pairs in quotes -/

def isSpecial (byte : UInt8) : Bool := byte == quote || byte == backslash

def quote (value : Bytes) : Bytes :=
  value.flatMap fun byte => if isSpecial byte then [backslash, byte] else [byte]

structure Item where
  gap : Nat
  key : Bytes
  value : Bytes
  key_ne : key ≠ []
  ident : key.all identByte = true

namespace Item

def text (item : Item) : Bytes :=
  List.replicate item.gap space ++
    (item.key ++ Ascii.letter '=' :: Ascii.quote :: (quote item.value ++ [Ascii.quote]))

def pair (item : Item) : Pair where
  key := item.key
  value := quote item.value
  quoted := true
  escaped := item.value.any isSpecial

end Item

theorem quotedValue_cons (byte : UInt8) (c : Bytes) (plain : isSpecial byte = false) :
    quotedValue (byte :: c) = (byte :: (quotedValue c).1, (quotedValue c).2) := by
  have other : byte ≠ Ascii.backslash ∧ byte ≠ Ascii.quote := by simpa [isSpecial, and_comm] using plain
  cases c with
  | nil | cons next c => simp [quotedValue, other]

theorem quotedValue_escape (byte : UInt8) (c : Bytes) :
    quotedValue (backslash :: byte :: c) = (backslash :: byte :: (quotedValue c).1, true, (quotedValue c).2.2) := by
  simp [quotedValue]

theorem quotedValue_end (c : Bytes) : quotedValue (Ascii.quote :: c) = ([], false, Ascii.quote :: c) := by
  cases c with
  | nil => rfl
  | cons next c =>
    have other : Ascii.quote ≠ Ascii.backslash := by decide
    simp [quotedValue, other]

theorem quotedValue_quote (value rest : Bytes) :
    quotedValue (quote value ++ Ascii.quote :: rest) = (quote value, value.any isSpecial, Ascii.quote :: rest) := by
  induction value with
  | nil => exact quotedValue_end rest
  | cons byte value ih =>
    rw [quote, flatMap_cons, ← quote, any_cons, append_assoc]
    cases special : isSpecial byte with
    | false =>
      rw [if_neg (by decide), singleton_append, quotedValue_cons _ _ special, ih]
      rfl
    | true =>
      rw [if_pos rfl, cons_append, singleton_append, quotedValue_escape, ih]
      rfl

theorem Item.turn (item : Item) {rest : Bytes}
    (goes : ∀ byte, rest.head? = some byte → byte ≠ carriageReturn ∧ byte ≠ newline) :
    logfmtTurn (item.text ++ rest) = some (.next (some item.pair) (rest != []) rest) := by
  have key := all_eq_true.mp item.ident
  obtain ⟨first, more, parts⟩ := exists_cons_of_ne_nil item.key_ne
  have garbage : Cut (fun byte => !identByte byte) (item.text ++ rest) (List.replicate item.gap space)
      (item.key ++ Ascii.letter '=' :: Ascii.quote :: (quote item.value ++ Ascii.quote :: rest)) := by
    refine ⟨by simp [Item.text], ?_, ?_⟩
    · intro byte member
      rw [(mem_replicate.mp member).2]
      rfl
    · rw [parts, cons_append, List.head?_cons, any_some, key first (parts ▸ mem_cons_self ..)]
      rfl
  have keyCut : Cut identByte (item.key ++ Ascii.letter '=' :: Ascii.quote :: (quote item.value ++ Ascii.quote :: rest))
      item.key (Ascii.letter '=' :: Ascii.quote :: (quote item.value ++ Ascii.quote :: rest)) := ⟨rfl, key, rfl⟩
  have nonempty : item.key ++ Ascii.letter '=' :: Ascii.quote :: (quote item.value ++ Ascii.quote :: rest) ≠ [] := by simp
  have ending : lineEnd rest = some (rest != [], rest) := by
    cases rest with
    | nil => rfl
    | cons byte rest => exact lineEnd_goes rest (goes byte rfl)
  have value : logfmtValue item.key (Ascii.letter '=' :: Ascii.quote :: (quote item.value ++ Ascii.quote :: rest)) =
      (item.pair, rest) := by
    simp [logfmtValue, quotedValue_quote, Item.pair]
  simp only [logfmtTurn, garbage.eq, nonempty, if_false, keyCut.eq, value, bind_eq_bind, ending, bind_some,
    item.key_ne]
  rfl

def written (items : List Item) : Bytes := items.flatMap Item.text

theorem head_written (items : List Item) (byte : UInt8) (head : (written items).head? = some byte) :
    byte ≠ carriageReturn ∧ byte ≠ newline := by
  have table : ∀ byte : UInt8, identByte byte = true → byte ≠ carriageReturn ∧ byte ≠ newline := by
    apply forall_byte
    decide +kernel
  cases items with
  | nil => cases head
  | cons item items =>
    obtain ⟨first, more, parts⟩ := exists_cons_of_ne_nil item.key_ne
    have ident := all_eq_true.mp item.ident first (parts ▸ mem_cons_self ..)
    rw [written, flatMap_cons, Item.text, parts] at head
    cases gap : item.gap with
    | zero =>
      rw [gap] at head
      cases head
      exact table byte ident
    | succ gap =>
      rw [gap] at head
      cases head
      decide

theorem walk_written (items : List Item) : Walk logfmtTurn (written items) (items.map Item.pair) [] := by
  induction items with
  | nil => exact .ended
  | cons item items ih =>
    have solid (item : Item) (rest : Bytes) : item.text ++ rest ≠ [] := by simp [Item.text]
    have step := item.turn (head_written items)
    rw [written, flatMap_cons, ← written]
    cases items with
    | nil => exact Walk.last (solid item _) step
    | cons other items =>
      have more : (written (other :: items) != []) = true := bne_iff_ne.mpr (solid other _)
      rw [more] at step
      refine Walk.more (solid item _) step ?_ ih
      simp [Item.text]
      omega

variable {plain : Json.PlainChar} {value : Bytes}

theorem quote_nil : quote value = [] ↔ value = [] := by
  cases value with
  | nil => exact iff_of_true rfl rfl
  | cons byte value =>
    refine iff_of_false ?_ (cons_ne_nil _ _)
    rw [quote, flatMap_cons]
    split <;> simp

theorem quote_plain (plain : value.any isSpecial = false) : quote value = value := by
  induction value with
  | nil => rfl
  | cons byte value ih =>
    rw [any_cons, Bool.or_eq_false_iff] at plain
    rw [quote, flatMap_cons, ← quote, ih plain.2, plain.1]
    rfl

theorem unescapes_escape {byte : UInt8} (special : isSpecial byte = true) :
    Json.Unescapes plain [backslash, byte] [byte] := by
  have kinds : byte = Ascii.quote ∨ byte = Ascii.backslash := by simpa [isSpecial] using special
  have bytes : [byte] = Json.characterBytes byte.toNat := by
    obtain rfl | rfl := kinds
    · decide
    · decide
  rw [bytes]
  refine .character (by decide) ?_ (by rw [← bytes]; exact le_succ 1)
  intro rest
  obtain rfl | rfl := kinds
  · exact Json.nextCharacterOn_ascii _ (by decide)
  · exact Json.nextCharacterOn_ascii _ (by decide)

theorem unescapes_quote (nonzero : 0 ∉ value) : Json.Unescapes plain (quote value) value := by
  have each : ∀ byte ∈ value, Json.Unescapes plain (if isSpecial byte then [backslash, byte] else [byte]) [byte] := by
    intro byte member
    cases special : isSpecial byte with
    | false =>
      have other : byte ≠ Ascii.quote ∧ byte ≠ Ascii.backslash := by simpa [isSpecial] using special
      exact .byte (fun zero => nonzero (zero ▸ member)) other.2
    | true => exact unescapes_escape special
  have whole := Json.Unescapes.flatMap each
  rwa [flatMap_singleton'] at whole

theorem plainValue_iff (item : Item) :
    plainValue plain item.pair = .str item.value ↔ ¬ (item.value.any isSpecial = true ∧ 0 ∈ item.value) := by
  unfold plainValue Item.pair
  simp only [quote_nil, if_true]
  split
  next empty => simp [empty]
  next nonempty =>
    cases special : item.value.any isSpecial with
    | false => simp [quote_plain special]
    | true =>
      simp only [if_true, true_and, Object.str.injEq]
      constructor
      · intro same zero
        rw [← same] at zero
        exact absurd (mem_takeWhile_imp zero) (by decide)
      · intro nonzero
        rw [(unescapes_quote nonzero).unescapes]
        refine takeWhile_eq_self_iff.mpr fun byte member => bne_iff_ne.mpr ?_
        rintro rfl
        exact nonzero member

def RoundTrip {Time : Type} (parser : Parser Time) (plain : Json.PlainChar) (numbers : Numbers) (items : List Item) : Prop :=
  ∃ lastByte time, flbParserLogfmtDo parser plain numbers [] (written items) =
    some (some { mapSize := items.length
                 packed := items.map fun item => (.str item.key, .str item.value)
                 time, lastByte })

/-- Pairs come out as they were written if and only if no value with quotes or backslashes has a zero byte, no
pair is taken for the time unless it is kept, and the length is no negative `int`. -/
theorem logfmt_roundTrip_iff {Time : Type} (parser : Parser Time) (plain : Json.PlainChar) (numbers : Numbers)
    (item : Item) (items : List Item) : RoundTrip parser plain numbers (item :: items) ↔
      (∀ each ∈ item :: items, parser.passes each.pair = true ∧ parser.keeps each.pair = true ∧
        ¬ (each.value.any isSpecial = true ∧ 0 ∈ each.value)) ∧
      0 ≤ (BitVec.ofNat 32 (written (item :: items)).length).toInt := by
  have walk := walk_written (item :: items)
  have values (item : Item) : packLogfmt plain numbers [] item.pair = (.str item.key, .str item.value) ↔
      ¬ (item.value.any isSpecial = true ∧ 0 ∈ item.value) := by
    rw [← @plainValue_iff plain]
    simp [packLogfmt, Item.pair]
  unfold RoundTrip flbParserLogfmtDo
  simp only [parserDo_exact (cons_ne_nil _ _) walk, values]
  constructor
  · rintro ⟨_, each, positive, rfl⟩
    exact ⟨each, positive⟩
  · rintro ⟨each, positive⟩
    exact ⟨_, each, positive, rfl⟩

/-- The value of `a="\"<0x00>b"`. -/
theorem zeroByte_key : ([0x61] : Bytes) ≠ [] := by decide

def zeroByte : Item where
  gap := 0
  key := [0x61]
  value := [Ascii.quote, 0x00, 0x62]
  key_ne := zeroByte_key
  ident := by decide

def textSize : Object → Nat
  | .str text => text.length
  | _ => 0

theorem value_cut_at_zero :
    ¬ RoundTrip ({ timeKey := none, timeFmt := none, timeKeep := false, logfmtNoBareKeys := false } : Parser Unit) .signed
      { int := .str, hex := .str, float := .str } [zeroByte] := by
  rintro ⟨_, _, result⟩
  have sizes : _ = some (some [3]) :=
    congrArg (Option.map (Option.map fun record => record.packed.map fun entry => textSize entry.2)) result
  exact absurd sizes (by decide)

theorem quotedValue_left (c : Bytes) : (quotedValue c).2.2.length ≤ c.length := by
  fun_induction quotedValue c with
  | case1 => exact Nat.le_refl _
  | case2 => exact Nat.zero_le _
  | case3 => exact Nat.le_refl _
  | case4 => exact Nat.zero_le _
  | case5 _ _ _ _ _ found ih =>
    rw [found] at ih
    exact le_succ_of_le (le_succ_of_le ih)
  | case6 => exact Nat.le_refl _
  | case7 _ _ _ _ _ _ _ _ found ih =>
    rw [found] at ih
    exact le_succ_of_le ih

theorem logfmtValue_left (key c : Bytes) : (logfmtValue key c).2.length ≤ c.length := by
  fun_cases logfmtValue key c with
  | case1 | case2 => exact Nat.le_refl _
  | case3 => exact Nat.zero_le _
  | case4 _ _ c _ _ left found =>
    have shorter := quotedValue_left c
    rw [found] at shorter
    simp only [length_cons] at shorter ⊢
    split
    · rw [length_tail]
      omega
    · omega
  | case5 _ _ byte c _ =>
    have shorter := (dropWhile_suffix (l := byte :: c) identByte).length_le
    simp only [length_cons] at shorter ⊢
    omega

theorem steady_logfmtTurn : Steady logfmtTurn := by
  intro c _
  have garbage := exists_cut (fun byte => !identByte byte) c
  have shorter := (dropWhile_suffix (l := c) fun byte => !identByte byte).length_le
  unfold logfmtTurn
  generalize c.dropWhile (fun byte => !identByte byte) = rest at garbage shorter
  cases rest with
  | nil =>
    refine ⟨_, rfl, ?_⟩
    intro pair more left impossible
    cases impossible
  | cons byte rest =>
    have ident : identByte byte = true := by simpa using garbage.stops
    have behindKey := (dropWhile_suffix (l := rest) identByte).length_le
    have behindValue := logfmtValue_left ((byte :: rest).takeWhile identByte) (rest.dropWhile identByte)
    obtain ⟨more, left, ends, fewer⟩ :=
      lineEnd_total (logfmtValue ((byte :: rest).takeWhile identByte) (rest.dropWhile identByte)).2
    simp only [cons_ne_nil, if_false, dropWhile_cons_of_pos ident, ends, bind_eq_bind, bind_some]
    refine ⟨_, rfl, ?_⟩
    rintro _ _ _ ⟨⟩
    rw [length_cons] at shorter
    omega

end FluentBit.KeyValue
