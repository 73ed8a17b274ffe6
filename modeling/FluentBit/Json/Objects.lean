import FluentBit.Event.Decoder
import FluentBit.Json.Pack
import FluentBit.Json.TokeniserProperties

/-! Objects one after another in a text. An object is a text that the tokeniser takes for one, with
the value that its tokens are packed as. -/

set_option autoImplicit false

namespace FluentBit.Json

open List Option Ascii
open Msgpack (Object)

def Whole (length : Nat) : List Token → Prop
  | [] => False
  | root :: inner =>
    root.type = .object ∧ root.stop = some length ∧ root.parent = none ∧
      ∀ token ∈ inner, token.parent ≠ none ∧ 0 < token.start ∧
        ∃ stop ∈ token.stop, token.start ≤ stop ∧ stop < length

instance (length : Nat) (tokens : List Token) : Decidable (Whole length tokens) :=
  match tokens with
  | [] => inferInstanceAs (Decidable False)
  | _ :: _ => inferInstanceAs (Decidable (_ ∧ _))

structure ObjectText (atof : Bytes → BitVec 64) (text : Bytes) (value : Object) : Prop where
  braces : ∃ body, text = openBrace :: (body ++ [closeBrace])
  clean : 0 ∉ text
  tokenised : ∃ tokens, Parser.init.parse text =
      (.ok tokens.length, { pos := text.length, tokens, toksuper := none }) ∧ Whole text.length tokens ∧
    ∃ packing, tokensToMsgpack atof tokens text = some packing ∧
      Msgpack.unpack Event.embedStackSize packing.bytes = .done value []
  isMap : ∃ entries, value = .map entries

def Blank (gap : Bytes) : Prop := ∀ byte ∈ gap, isBlank byte = true

instance (gap : Bytes) : Decidable (Blank gap) := List.decidableBAll _ gap

inductive Objects (atof : Bytes → BitVec 64) : Bytes → List Object → Prop where
  | none : Objects atof [] []
  | more {gap text rest : Bytes} {value : Object} {values : List Object} (blank : Blank gap)
      (object : ObjectText atof text value) (later : Objects atof rest values) :
      Objects atof (gap ++ (text ++ rest)) (value :: values)

section

variable {atof : Bytes → BitVec 64} {text rest gap : Bytes} {value : Object} {values : List Object}

/-! ### Tokens -/

theorem blank_byte : ∀ byte : UInt8, isBlank byte = true → byte ≠ 0 ∧ symbolOf byte = .blank := by
  apply forall_byte
  decide +kernel

namespace Parser

variable (before : List Token) (offset : Nat)

theorem run_blank (blank : Blank gap) (rest : Bytes) :
    (init.behind before offset).run (gap ++ rest) = (init.behind before (offset + gap.length)).run rest := by
  induction gap generalizing offset with
  | nil => rfl
  | cons byte gap ih =>
    obtain ⟨nonzero, symbol⟩ := blank_byte byte (blank byte (mem_cons_self ..))
    have moved : (init.behind before offset).moved (init.behind before offset).toksuper =
        init.behind before (offset + 1) := rfl
    have one : (init.behind before (offset + 1)).pos - (init.behind before offset).pos = 1 := by
      simp [behind, init]
    rw [cons_append, run_cons nonzero, advance, symbol]
    simp only [moved, one, drop_succ_cons, drop_zero]
    rw [ih _ fun other member => blank other (mem_cons_of_mem _ member), length_cons]
    congr 2
    omega

theorem run_brace {body : Bytes} (clean : 0 ∉ body) : (init.behind before offset).run (openBrace :: body) =
      ((init.run (openBrace :: body)).1, (init.run (openBrace :: body)).2.behind before offset) := by
  have symbol : symbolOf openBrace = .opens .object := by decide
  have first : init.advance openBrace body = .ok (init.pushed .object) := by
    rfl
  have behindFirst : (init.behind before offset).advance openBrace body =
      .ok ((init.pushed .object).behind before offset) := by
    rw [advance, symbol]
    simp only
    rw [opened_behind]
    rfl
  have sound := sound_init.round (.opened .object)
  rw [run_cons (by decide), run_cons (by decide), first, behindFirst]
  have drop : ((init.pushed .object).behind before offset).pos - (init.behind before offset).pos = 1 := by
    simp [behind, init, pushed]
  simp only [drop]
  exact run_behind before offset sound (by simp [pushed]) clean

theorem parse_eq (parser : Parser) (js : Bytes) : parser.parse js = finished (parser.run (js.drop parser.pos)) := rfl

theorem init_parse (js : Bytes) : init.parse js = finished (init.run js) := rfl

theorem run_of_parse {count : Nat} {next : Parser} (parsed : init.parse text = (.ok count, next)) :
    init.run text = (none, next) := by
  rw [init_parse] at parsed
  unfold finished at parsed
  split at parsed
  · cases parsed
  next last ran =>
    split at parsed
    · cases parsed
    · cases parsed
      exact ran

end Parser

theorem ObjectText.run (object : ObjectText atof text value) : ∃ tokens, Whole text.length tokens ∧
      (∃ packing, tokensToMsgpack atof tokens text = some packing ∧
        Msgpack.unpack Event.embedStackSize packing.bytes = .done value []) ∧
      ∀ before offset rest, (Parser.init.behind before offset).run (text ++ rest) =
        (Parser.init.behind (shifted before offset tokens) (offset + text.length)).run rest := by
  obtain ⟨tokens, parsed, whole, packed⟩ := object.tokenised
  obtain ⟨body, shape⟩ := object.braces
  have clean := object.clean
  refine ⟨tokens, whole, packed, ?_⟩
  intro before offset rest
  have ran := Parser.run_of_parse parsed
  have there : (Parser.init.behind before offset).run text =
      (none, Parser.init.behind (shifted before offset tokens) (offset + text.length)) := by
    rw [shape] at clean ran ⊢
    rw [Parser.run_brace before offset (fun member => clean (mem_cons_of_mem _ member)), ran]
    simp [Parser.behind, Parser.init, shifted]
  rw [Parser.run_resume clean there rest]
  congr 1
  simp [Parser.behind, Parser.init]

/-- A part of an object leaves its root open. -/
theorem ObjectText.run_part (object : ObjectText atof text value) {first second : Bytes}
    (split : text = first ++ second) (some : first ≠ []) (more : second ≠ []) :
    ∃ status root inner, status ≠ Option.some Failure.inval ∧ root.stop = none ∧ root.parent = none ∧
      (∀ token ∈ inner, token.parent ≠ none) ∧ ∃ next : Parser, next.tokens = root :: inner ∧
        ∀ before offset, (Parser.init.behind before offset).run first = (status, next.behind before offset) := by
  obtain ⟨tokens, parsed, whole, _⟩ := object.tokenised
  obtain ⟨body, shape⟩ := object.braces
  have clean := object.clean
  have cleanFirst : 0 ∉ first := fun member => clean (by rw [split]; exact mem_append_left _ member)
  have ran := Parser.run_of_parse parsed
  obtain ⟨firstBody, firstShape⟩ : ∃ firstBody, first = openBrace :: firstBody := by
    cases first with
    | nil => exact absurd rfl some
    | cons byte firstBody =>
      rw [split, cons_append] at shape
      exact ⟨firstBody, by rw [(List.cons.inj shape).1]⟩
  cases reached : Parser.init.run first with
  | mk status next =>
    have fine : status ≠ Option.some .inval := by
      rintro rfl
      rw [split, Parser.run_inval cleanFirst reached second] at ran
      cases ran
    -- what is there at the end of the first part is there at the end of the text
    have later : Extends next.tokens tokens := by
      rw [split, Parser.run_resume cleanFirst reached second] at ran
      refine Parser.run_extends (fun member => clean ?_) ran
      rw [split]
      exact mem_of_mem_drop member
    have bounded := Parser.run_invariant (fun _ _ round => round.bounded) cleanFirst Parser.bounded_init reached
    have inside := (Parser.run_bounds cleanFirst reached).2.1
    have there : ∃ root inner, next.tokens = root :: inner ∧ root.parent = none := by
      rw [firstShape, Parser.run_cons (by decide)] at reached
      have cleanBody : 0 ∉ firstBody := fun member => cleanFirst (by rw [firstShape]; exact mem_cons_of_mem _ member)
      obtain ⟨root, place, kept⟩ := Parser.run_extends cleanBody reached 0 _ rfl
      cases shapeNext : next.tokens with
      | nil => simp [shapeNext] at place
      | cons head inner =>
        rw [shapeNext] at place
        cases place
        exact ⟨root, inner, rfl, kept.parent⟩
    obtain ⟨root, inner, shapeNext, top⟩ := there
    refine ⟨status, root, inner, fine, ?_, top, ?_, next, shapeNext, ?_⟩
    · by_contra closed
      obtain ⟨stop, ends⟩ := ne_none_iff_exists'.mp closed
      obtain ⟨last, place, kept⟩ := later 0 root (by rw [shapeNext]; rfl)
      cases tokens with
      | nil => cases place
      | cons head others =>
        cases place
        have same := kept.stop closed
        rw [whole.2.1, ends, Option.some.injEq] at same
        have bound := bounded root (by rw [shapeNext]; exact mem_cons_self ..) stop ends
        have longer := length_pos_iff.mpr more
        rw [split, length_append] at same
        simp only [Parser.init] at inside
        omega
    · intro token member
      obtain ⟨index, found⟩ := mem_iff_getElem?.mp member
      obtain ⟨last, place, kept⟩ := later (index + 1) token (by rw [shapeNext]; exact found)
      cases tokens with
      | nil => cases place
      | cons head others =>
        rw [← kept.parent]
        exact (whole.2.2.2 last (mem_of_getElem? place)).1
    · intro before offset
      rw [firstShape] at cleanFirst reached ⊢
      rw [Parser.run_brace before offset (fun member => cleanFirst (mem_cons_of_mem _ member)), reached]

def tokenBytes (atof : Bytes → BitVec 64) (js : Bytes) : List Token → Option Bytes
  | [] => some []
  | token :: rest => do
      let stop ← token.stop
      let bytes ← packToken atof (js.drop token.start) (stop - token.start) token
      let later ← tokenBytes atof js rest
      return bytes ++ later

theorem tokenBytes_append (js : Bytes) (first second : List Token) : tokenBytes atof js (first ++ second) = do
      let bytes ← tokenBytes atof js first
      let later ← tokenBytes atof js second
      return bytes ++ later := by
  induction first with
  | nil =>
    simp only [nil_append, tokenBytes]
    cases tokenBytes atof js second with
    | none => rfl
    | some later => rfl
  | cons token first ih =>
    simp only [cons_append, tokenBytes, ih]
    cases token.stop with
    | none => rfl
    | some stop =>
      simp only [bind_eq_bind, bind_some]
      cases packToken atof (js.drop token.start) (stop - token.start) token with
      | none => rfl
      | some bytes =>
        cases tokenBytes atof js first with
        | none => rfl
        | some middle =>
          cases tokenBytes atof js second with
          | none => rfl
          | some later => simp

def lastTop (start : Nat) : List Token → Nat
  | [] => start
  | token :: rest => lastTop (if token.parent = none then token.stop.getD start else start) rest

variable {tokens : List Token}

theorem packTokens_eq {js : Bytes} {packing : Packing} {bytes : Bytes}
    (closed : ∀ token ∈ tokens, token.start ≠ 0 ∨ token.stop ≠ some 0)
    (found : tokenBytes atof js tokens = some bytes) : ∃ records, packTokens atof js tokens packing =
      some { bytes := packing.bytes ++ bytes, lastByte := lastTop packing.lastByte tokens, records } := by
  induction tokens generalizing packing bytes with
  | nil =>
    cases found
    exact ⟨packing.records, by simp [packTokens, lastTop]⟩
  | cons token rest ih =>
    simp only [tokenBytes, bind_eq_bind, bind_eq_some_iff] at found
    obtain ⟨stop, ends, head, packed, later, others, joined⟩ := found
    cases joined
    have kept : ¬ (token.start = 0 ∧ stop = 0) := by
      rintro ⟨atStart, atStop⟩
      rcases closed token (mem_cons_self ..) with start | nonzero
      · exact start atStart
      · exact nonzero (by rw [ends, atStop])
    obtain ⟨records, packedLater⟩ := @ih
      { bytes := packing.bytes ++ head
        lastByte := if token.parent = none then stop else packing.lastByte
        records := if token.parent = none then packing.records + 1 else packing.records }
      later (fun other member => closed other (mem_cons_of_mem _ member)) others
    refine ⟨records, ?_⟩
    simp only [packTokens, ends, kept, if_false, packed]
    rw [packedLater]
    simp [lastTop, ends]

variable {packing : Packing}

theorem tokenBytes_of_packed {js : Bytes} {packed : Packing}
    (closed : ∀ token ∈ tokens, token.stop ≠ none ∧ (token.start ≠ 0 ∨ token.stop ≠ some 0))
    (done : packTokens atof js tokens packing = some packed) :
    ∃ bytes, tokenBytes atof js tokens = some bytes ∧ packed.bytes = packing.bytes ++ bytes := by
  induction tokens generalizing packing with
  | nil =>
    cases done
    exact ⟨[], rfl, by simp⟩
  | cons token rest ih =>
    obtain ⟨ended, start⟩ := closed token (mem_cons_self ..)
    obtain ⟨stop, ends⟩ := ne_none_iff_exists'.mp ended
    have kept : ¬ (token.start = 0 ∧ stop = 0) := by
      rintro ⟨atStart, atStop⟩
      rcases start with start | nonzero
      · exact start atStart
      · exact nonzero (by rw [ends, atStop])
    simp only [packTokens, ends, kept, if_false] at done
    split at done
    · cases done
    next head packedHead =>
      obtain ⟨later, found, joined⟩ := ih (fun other member => closed other (mem_cons_of_mem _ member)) done
      refine ⟨head ++ later, ?_, by simp [joined]⟩
      simp [tokenBytes, ends, packedHead, found]

/-! ### Places in a text -/

variable {first : Bytes}
variable {accepts : UInt8 → Bool}

section

variable (stops : ∃ byte ∈ first, accepts byte = false) (second : Bytes)
include stops second

theorem takeWhile_append : (first ++ second).takeWhile accepts = first.takeWhile accepts := by
  obtain ⟨stop, member, refused⟩ := stops
  rw [List.takeWhile_append, if_neg]
  intro whole
  rw [← ( takeWhile_prefix accepts).eq_of_length whole] at member
  exact absurd (refused.symm.trans (mem_takeWhile_imp member)) Bool.false_ne_true

theorem dropWhile_append : (first ++ second).dropWhile accepts = first.dropWhile accepts ++ second := by
  obtain ⟨stop, member, refused⟩ := stops
  rw [List.dropWhile_append, if_neg]
  intro none
  have all := dropWhile_eq_nil_iff.mp (isEmpty_iff.mp none)
  exact absurd (refused.symm.trans (all stop member)) Bool.false_ne_true

end

theorem atollDigits_append (negative : Bool) (stops : closeBrace ∈ first) (second : Bytes) :
    atollDigits negative (first ++ second) = atollDigits negative first := by
  rw [atollDigits, takeWhile_append ⟨_, stops, by decide⟩]
  rfl

theorem atoll_append (stops : closeBrace ∈ first) (second : Bytes) : atoll (first ++ second) = atoll first := by
  have kept : closeBrace ∈ first.dropWhile isSpace := by
    induction first with
    | nil => cases stops
    | cons byte first ih =>
      rw [dropWhile_cons]
      split
      next blank =>
        rcases mem_cons.mp stops with rfl | stops
        · exact absurd blank (by decide)
        · exact ih stops
      · exact stops
  rw [atoll, dropWhile_append ⟨_, stops, by decide⟩, atoll]
  cases shape : first.dropWhile isSpace with
  | nil => simp [shape] at kept
  | cons sign rest =>
    rw [shape] at kept
    rcases mem_cons.mp kept with rfl | inside
    · simp [minus, closeBrace, letter, Char.toUInt8, atollDigits, isDigit]
    · simp only [cons_append]
      rw [atollDigits_append true inside, atollDigits_append false inside, ← cons_append,
        atollDigits_append false kept]

theorem packToken_append {length : Nat} (token : Token) (inside : length < first.length)
    (stops : closeBrace ∈ first) (second : Bytes) :
    packToken atof (first ++ second) length token = packToken atof first length token := by
  have head : (first ++ second).head? = first.head? := by
    cases first with
    | nil => cases stops
    | cons byte first => rfl
  unfold packToken
  split
  · rfl
  · rfl
  · rw [take_append_of_le_length (by omega)]
  · unfold packPrimitive
    rw [head, take_append_of_le_length (by omega), takeWhile_append ⟨_, stops, by decide⟩, atoll_append stops]
  · rfl

theorem tokenBytes_behind (base : Nat) (front after : Bytes) (closing : ∃ body, text = body ++ [closeBrace])
    (inside : ∀ token ∈ tokens, token.type = .object ∨ ∃ stop ∈ token.stop, token.start ≤ stop ∧ stop < text.length) :
    tokenBytes atof (front ++ (text ++ after)) (tokens.map (Token.shift front.length base)) =
      tokenBytes atof text tokens := by
  induction tokens with
  | nil => rfl
  | cons token rest ih =>
    have same : ∀ stop, token.stop = some stop →
        packToken atof ((front ++ (text ++ after)).drop (front.length + token.start)) (stop - token.start)
            (token.shift front.length base) =
          packToken atof (text.drop token.start) (stop - token.start) token := by
      intro stop ends
      have type : (token.shift front.length base).type = token.type := rfl
      rcases inside token (mem_cons_self ..) with object | ⟨found, isStop, ordered, before⟩
      · simp only [packToken, type, object]
        rfl
      · rw [ends] at isStop
        cases isStop
        obtain ⟨body, rfl⟩ := closing
        rw [length_append, length_singleton] at before
        have brace : closeBrace ∈ (body ++ [closeBrace]).drop token.start := by
          rw [drop_append_of_le_length (by omega)]
          simp
        have place : (front ++ (body ++ [closeBrace] ++ after)).drop (front.length + token.start) =
            (body ++ [closeBrace]).drop token.start ++ after := by
          rw [← drop_drop, drop_left, drop_append_of_le_length]
          simp only [length_append, length_singleton]
          omega
        rw [place]
        refine (packToken_append _ ?_ brace after).trans ?_
        · simp only [length_drop, length_append, length_singleton]
          omega
        · rfl
    simp only [map_cons, tokenBytes, ih fun other member => inside other (mem_cons_of_mem _ member)]
    cases ends : token.stop with
    | none => simp [Token.shift, ends]
    | some stop =>
      have width : front.length + stop - (front.length + token.start) = stop - token.start := by omega
      have shape : (token.shift front.length base).stop = some (front.length + stop) := by
        simp [Token.shift, ends]
      have start : (token.shift front.length base).start = front.length + token.start := rfl
      simp only [shape, start, bind_eq_bind, bind_some, width, same stop ends]

inductive Unpacks : Bytes → List Object → Prop where
  | none : Unpacks [] []
  | more {bytes rest : Bytes} {value : Object} {values : List Object}
      (first : Msgpack.unpack Event.embedStackSize bytes = .done value []) (later : Unpacks rest values) :
      Unpacks (bytes ++ rest) (value :: values)

theorem ObjectText.packs (object : ObjectText atof text value) (whole : Whole text.length tokens)
    (packed : tokensToMsgpack atof tokens text = some packing) (base : Nat) (front after : Bytes) :
    tokenBytes atof (front ++ (text ++ after)) (tokens.map (Token.shift front.length base)) = some packing.bytes ∧
      (∀ token ∈ tokens.map (Token.shift front.length base),
        token.isOpen = false ∧ (token.start ≠ 0 ∨ token.stop ≠ some 0)) ∧
      ∀ start, lastTop start (tokens.map (Token.shift front.length base)) = front.length + text.length := by
  cases tokens with
  | nil => cases whole
  | cons root inner =>
    obtain ⟨isObject, spans, top, others⟩ := whole
    obtain ⟨body, shape⟩ := object.braces
    have positive : 0 < text.length := by
      rw [shape]
      simp
    have closed : ∀ token ∈ root :: inner, token.stop ≠ none ∧ (token.start ≠ 0 ∨ token.stop ≠ some 0) := by
      intro token member
      rcases mem_cons.mp member with rfl | member
      · rw [spans]
        exact ⟨by simp, .inr (by rw [ne_eq, Option.some.injEq]; omega)⟩
      · obtain ⟨_, behind, stop, ends, _⟩ := others token member
        rw [mem_def] at ends
        exact ⟨by simp [ends], .inl (by omega)⟩
    obtain ⟨bytes, found, joined⟩ := tokenBytes_of_packed closed packed
    rw [nil_append] at joined
    refine ⟨?_, ?_, ?_⟩
    · rw [tokenBytes_behind base front after ⟨openBrace :: body, by rw [shape]; simp⟩, found, joined]
      intro token member
      rcases mem_cons.mp member with rfl | member
      · exact .inl isObject
      · exact .inr (others token member).2.2
    · intro token member
      obtain ⟨before, there, rfl⟩ := mem_map.mp member
      obtain ⟨ended, start⟩ := closed before there
      obtain ⟨stop, ends⟩ := ne_none_iff_exists'.mp ended
      refine ⟨by simp [Token.isOpen, Token.shift, ends], ?_⟩
      simp only [Token.shift, ends, map_some, ne_eq, Option.some.injEq] at start ⊢
      omega
    · intro start
      have inner_top : ∀ (tokens : List Token) (last : Nat), (∀ token ∈ tokens, token.parent ≠ none) →
          lastTop last (tokens.map (Token.shift front.length base)) = last := by
        intro tokens
        induction tokens with
        | nil => exact fun _ _ => rfl
        | cons token rest ih =>
          intro last below
          have parent : (token.shift front.length base).parent ≠ none := by
            simpa [Token.shift] using below token (mem_cons_self ..)
          simp only [map_cons, lastTop, parent, if_false]
          exact ih last fun other member => below other (mem_cons_of_mem _ member)
      simp only [map_cons, lastTop, Token.shift, top, spans, map_none, map_some, if_true]
      exact inner_top inner _ fun token member => (others token member).1

theorem lastTop_append (start : Nat) (first second : List Token) :
    lastTop start (first ++ second) = lastTop (lastTop start first) second := by
  induction first generalizing start with
  | nil => rfl
  | cons token first ih => exact ih _

theorem Objects.run (objects : Objects atof text values) (before : List Token) (offset : Nat) : ∃ tokens,
      (∀ rest, (Parser.init.behind before offset).run (text ++ rest) =
        (Parser.init.behind (before ++ tokens) (offset + text.length)).run rest) ∧
      (∀ token ∈ tokens, token.isOpen = false ∧ (token.start ≠ 0 ∨ token.stop ≠ some 0)) ∧ (tokens = [] ↔ values = []) ∧
      (∀ start, lastTop start tokens = if values = [] then start else offset + text.length) ∧
      ∃ bytes, Unpacks bytes values ∧
        ∀ front after, front.length = offset → tokenBytes atof (front ++ (text ++ after)) tokens = some bytes := by
  induction objects generalizing before offset with
  | none => exact ⟨[], by simp, by simp, by simp, by simp [lastTop], [], .none, by simp [tokenBytes]⟩
  | @more gap text rest value values blank object later ih =>
    obtain ⟨own, whole, ⟨packing, packed, unpacked⟩, ran⟩ := object.run
    obtain ⟨others, ranLater, closedLater, emptyLater, lastLater, bytes, unpacks, packedLater⟩ :=
      ih (shifted before (offset + gap.length) own) (offset + gap.length + text.length)
    have place : (List.replicate (offset + gap.length) (0 : UInt8)).length = offset + gap.length := length_replicate
    obtain ⟨_, closed, last⟩ := object.packs whole packed before.length (List.replicate (offset + gap.length) 0) []
    rw [place] at closed last
    have nonempty : own ≠ [] := by
      rintro rfl
      exact whole
    refine ⟨own.map (Token.shift (offset + gap.length) before.length) ++ others, ?_, ?_, ?_, ?_,
      packing.bytes ++ bytes, .more unpacked unpacks, ?_⟩
    · intro more
      rw [append_assoc, Parser.run_blank before offset blank, append_assoc, ran, ranLater]
      simp [shifted, Nat.add_assoc]
    · intro token member
      rcases mem_append.mp member with first | second
      · exact closed token first
      · exact closedLater token second
    · simp [nonempty]
    · intro start
      rw [lastTop_append, last, lastLater]
      split
      next none =>
        cases later with
        | none => simp [Nat.add_assoc]
        | more => cases none
      · simp [Nat.add_assoc]
    · intro front after starts
      have first := (object.packs whole packed before.length (front ++ gap) (rest ++ after)).1
      have second := packedLater (front ++ (gap ++ text)) after (by simp [starts, Nat.add_assoc])
      rw [length_append, starts] at first
      simp only [append_assoc] at first second ⊢
      rw [tokenBytes_append, first, second]
      rfl

end

end FluentBit.Json
