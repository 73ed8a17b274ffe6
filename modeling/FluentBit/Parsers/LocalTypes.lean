import FluentBit.Parsers.Logfmt
import FluentBit.Parsers.Ltsv
import Mathlib.Data.List.Forall2

/-! What the types of a parser change: values of the keys they name. -/

set_option autoImplicit false

namespace FluentBit.KeyValue

open List
open Msgpack (Object)

def SameRecord {Time : Type} (named : Bytes → Prop) :
    Option (Option (Record (Object × Object) Time)) → Option (Option (Record (Object × Object) Time)) → Prop
  | some (some first), some (some second) =>
    List.Forall₂ (fun a b => a.1 = b.1 ∧ ((∀ key, a.1 = .str key → ¬ named key) → a.2 = b.2)) first.packed second.packed
  | some none, some none => True
  | _, _ => False

def Named (types : List ParserType) (key : Bytes) : Prop := ∃ type ∈ types, type.key = some key

theorem sameRecord_iff {Time : Type} {parser : Parser Time} {turn : Bytes → Option Turn} (steady : Steady turn)
    {first second : Pair → Object × Object} {named : Bytes → Prop} (line : Bytes)
    (keys : ∀ pair, (first pair).1 = .str pair.key ∧ (second pair).1 = .str pair.key) :
    SameRecord named (parserDo parser turn first line) (parserDo parser turn second line) ↔
      ∀ record, parserDo parser turn id line = some (some record) →
        ∀ pair ∈ record.packed, ¬ named pair.key → (first pair).2 = (second pair).2 := by
  obtain ⟨pairs, left, walk⟩ := steady.walks line
  simp only [parserDo_walk walk]
  split
  · simp [SameRecord, keys, map_id, Object.str.injEq]
  · simp [SameRecord]

theorem flbParserTypecast_fst (numbers : Numbers) (types : List ParserType) (key val : Bytes) :
    (flbParserTypecast numbers types key val).1 = .str key := by
  unfold flbParserTypecast
  split <;> rfl

theorem flbParserTypecast_unnamed (numbers : Numbers) {types : List ParserType} {key : Bytes}
    (unnamed : ¬ Named types key) (val : Bytes) : flbParserTypecast numbers types key val = (.str key, .str val) := by
  have absent : types.find? (fun type => type.key == some key) = none := by
    rw [List.find?_eq_none]
    intro type member same
    exact unnamed ⟨type, member, beq_iff_eq.mp same⟩
  rw [flbParserTypecast, absent]

variable {numbers : Numbers} {types : List ParserType} {plain : Json.PlainChar} {pair : Pair}

theorem packLtsv_fst : (packLtsv numbers types pair).1 = .str pair.key := by
  unfold packLtsv
  split
  · exact flbParserTypecast_fst ..
  · rfl

theorem packLogfmt_fst : (packLogfmt plain numbers types pair).1 = .str pair.key := by
  unfold packLogfmt
  split
  · exact flbParserTypecast_fst ..
  · rfl

theorem packLtsv_unnamed (unnamed : ¬ Named types pair.key) : (packLtsv numbers types pair).2 = .str pair.value := by
  unfold packLtsv
  split
  · rw [flbParserTypecast_unnamed numbers unnamed]
  · rfl

theorem packLogfmt_unnamed (unnamed : ¬ Named types pair.key) :
    (packLogfmt plain numbers types pair).2 = if types = [] then plainValue plain pair else .str pair.value := by
  cases types with
  | nil => rfl
  | cons type types => exact congrArg Prod.snd (flbParserTypecast_unnamed numbers unnamed _)

def Untouched (plain : Json.PlainChar) (pair : Pair) : Prop :=
  if pair.value = [] then pair.quoted = true
  else pair.escaped = true → (Json.unescapeStringUtf8On plain pair.value).takeWhile (· != 0) = pair.value

theorem untouched_iff : Untouched plain pair ↔ plainValue plain pair = .str pair.value := by
  unfold Untouched plainValue
  split
  next empty => cases pair.quoted <;> simp [empty]
  · cases pair.escaped <;> simp

/-- The types change the values of the keys they name only, in both parsers, if and only if both have types, or
none of them has, or every value of an unnamed key in the record of the line is one that unescaping does not
touch and that is not missing. -/
theorem types_local_iff {Time : Type} (parser : Parser Time) (plain : Json.PlainChar) (numbers : Numbers)
    (first second : List ParserType) (line : Bytes) :
    (SameRecord (Named (first ++ second)) (flbParserLtsvDo parser numbers first line)
        (flbParserLtsvDo parser numbers second line) ∧
      SameRecord (Named (first ++ second)) (flbParserLogfmtDo parser plain numbers first line)
        (flbParserLogfmtDo parser plain numbers second line)) ↔
      ((first = [] ↔ second = []) ∨ ∀ record, parserDo parser logfmtTurn id line = some (some record) →
        ∀ pair ∈ record.packed, ¬ Named (first ++ second) pair.key → Untouched plain pair) := by
  have apart {key : Bytes} (unnamed : ¬ Named (first ++ second) key) : ¬ Named first key ∧ ¬ Named second key := by
    constructor
    · rintro ⟨type, member, same⟩
      exact unnamed ⟨type, mem_append_left _ member, same⟩
    · rintro ⟨type, member, same⟩
      exact unnamed ⟨type, mem_append_right _ member, same⟩
  have ltsv : SameRecord (Named (first ++ second)) (flbParserLtsvDo parser numbers first line)
      (flbParserLtsvDo parser numbers second line) := by
    refine (sameRecord_iff steady_ltsvTurn line fun _ => ⟨packLtsv_fst, packLtsv_fst⟩).mpr ?_
    intro _ _ pair _ unnamed
    rw [packLtsv_unnamed (apart unnamed).1, packLtsv_unnamed (apart unnamed).2]
  rw [and_iff_right ltsv]
  refine (sameRecord_iff steady_logfmtTurn line fun _ => ⟨packLogfmt_fst, packLogfmt_fst⟩).trans ?_
  have values {pair : Pair} (unnamed : ¬ Named (first ++ second) pair.key) :
      (packLogfmt plain numbers first pair).2 = (packLogfmt plain numbers second pair).2 ↔
        (first = [] ↔ second = []) ∨ Untouched plain pair := by
    rw [packLogfmt_unnamed (apart unnamed).1, packLogfmt_unnamed (apart unnamed).2, untouched_iff]
    cases first with
    | nil => cases second <;> simp
    | cons => cases second <;> simp [eq_comm]
  constructor
  · intro same
    by_cases both : first = [] ↔ second = []
    · exact .inl both
    · refine .inr fun record found pair member unnamed => ?_
      exact ((values unnamed).mp (same record found pair member unnamed)).resolve_left both
  · intro condition record found pair member unnamed
    exact (values unnamed).mpr (condition.imp_right fun untouched => untouched record found pair member unnamed)

/-- A key without a value is true for a parser without types, and an empty text for one that has a type for
another key. -/
theorem bare_key_retyped : ¬ SameRecord (Named [{ key := some [0x62], type := .int }])
      (flbParserLogfmtDo ({ timeKey := none, timeFmt := none, timeKeep := false, logfmtNoBareKeys := false } : Parser Unit)
        .signed { int := .str, hex := .str, float := .str } [] [0x61])
      (flbParserLogfmtDo ({ timeKey := none, timeFmt := none, timeKeep := false, logfmtNoBareKeys := false } : Parser Unit)
        .signed { int := .str, hex := .str, float := .str } [{ key := some [0x62], type := .int }] [0x61]) := by
  intro same
  replace same : List.Forall₂ _ [(Object.str [0x61], Object.boolean true)] [(Object.str [0x61], Object.str [])] := same
  cases same with
  | cons values _ =>
    have equal := values.2 fun key same => by
      cases same
      rintro ⟨type, member, named⟩
      cases mem_singleton.mp member
      cases named
    cases equal

end FluentBit.KeyValue
