import FluentBit.Json.Objects

/-! A text of objects that is cut anywhere: the objects before the cut are packed, and what is left
is blank or the start of the next object. -/

set_option autoImplicit false

namespace FluentBit.Json

open List
open Msgpack (Object)

def Written (atof : Bytes → BitVec 64) (text : Bytes) (values : List Object) : Prop :=
  ∃ front gap, text = front ++ gap ∧ Objects atof front values ∧ Blank gap

inductive Pending (atof : Bytes → BitVec 64) : Bytes → Prop where
  | blank {gap : Bytes} (blank : Blank gap) : Pending atof gap
  | part {gap text first second : Bytes} {value : Object} (blank : Blank gap) (object : ObjectText atof text value)
      (split : text = first ++ second) (some : first ≠ []) (more : second ≠ []) : Pending atof (gap ++ first)

section

variable {atof : Bytes → BitVec 64} {text before pending gap : Bytes} {values : List Object}

theorem ObjectText.ne_nil {value : Object} (object : ObjectText atof text value) : text ≠ [] := by
  obtain ⟨body, shape⟩ := object.braces
  rw [shape]
  simp

theorem Objects.eq_nil_iff (objects : Objects atof text values) : text = [] ↔ values = [] := by
  cases objects with
  | none => simp
  | more blank object later => simp [object.ne_nil]

theorem written_append {front : Bytes} (objects : Objects atof front values) (blank : Blank gap) :
    Written atof (front ++ gap) values := ⟨front, gap, rfl, objects, blank⟩

theorem Objects.cut (objects : Objects atof text values) {read unread : Bytes} (blank : Blank gap)
    (split : read ++ unread = text ++ gap) :
    ∃ before pending done later, read = before ++ pending ∧ values = done ++ later ∧ Objects atof before done ∧
      Pending atof pending ∧ Written atof (pending ++ unread) later ∧ (unread = [] → later = []) := by
  induction objects generalizing read with
  | none =>
    rw [nil_append] at split
    have readBlank : Blank read := fun byte member => blank byte (by rw [← split]; exact mem_append_left _ member)
    refine ⟨[], read, [], [], rfl, rfl, .none, .blank readBlank, ?_, fun _ => rfl⟩
    rw [split]
    exact written_append .none blank
  | @more own object rest value values blankOwn isObject later ih =>
    have whole : Objects atof (own ++ (object ++ rest)) (value :: values) := .more blankOwn isObject later
    have all : Written atof (read ++ unread) (value :: values) := by
      rw [split]
      exact written_append whole blank
    have nonempty := isObject.ne_nil
    rw [append_assoc] at split
    rcases append_eq_append_iff.mp split with ⟨rest', ownSplit, unreadSplit⟩ | ⟨inner, readSplit, objectSplit⟩
    · have readBlank : Blank read :=
        fun byte member => blankOwn byte (by rw [ownSplit]; exact mem_append_left _ member)
      refine ⟨[], read, [], _, rfl, rfl, .none, .blank readBlank, all, ?_⟩
      rintro rfl
      simp [nonempty] at unreadSplit
    · rw [append_assoc] at objectSplit
      have complete : ∀ behind, inner = object ++ behind → rest ++ gap = behind ++ unread →
          ∃ before pending done later, read = before ++ pending ∧ value :: values = done ++ later ∧
            Objects atof before done ∧ Pending atof pending ∧ Written atof (pending ++ unread) later ∧
            (unread = [] → later = []) := by
        intro behind innerSplit left
        obtain ⟨front, pending, done, later, readLater, valuesSplit, isDone, isPending, written, last⟩ := ih left.symm
        refine ⟨own ++ (object ++ front), pending, value :: done, later, ?_, ?_, .more blankOwn isObject isDone,
          isPending, written, last⟩
        · rw [readSplit, innerSplit, readLater]
          simp
        · rw [valuesSplit]
          rfl
      rcases append_eq_append_iff.mp objectSplit with ⟨behind, innerSplit, left⟩ | ⟨missing, isPart, unreadSplit⟩
      · exact complete behind innerSplit left
      · cases missing with
        | nil => exact complete [] (by simpa using isPart.symm) (by simpa using unreadSplit.symm)
        | cons byte missing =>
          refine ⟨[], read, [], _, rfl, rfl, .none, ?_, all, ?_⟩
          · rw [readSplit]
            cases inner with
            | nil =>
              rw [append_nil]
              exact .blank blankOwn
            | cons first inner => exact .part blankOwn isObject isPart (by simp) (by simp)
          · rintro rfl
            cases unreadSplit

theorem Written.cut {read unread : Bytes} (written : Written atof (read ++ unread) values) :
    ∃ before pending done later, read = before ++ pending ∧ values = done ++ later ∧ Objects atof before done ∧
      Pending atof pending ∧ Written atof (pending ++ unread) later ∧ (unread = [] → later = []) := by
  obtain ⟨front, gap, split, objects, blank⟩ := written
  exact objects.cut blank split

theorem Written.drop_blank {gap text : Bytes} (written : Written atof (gap ++ text) values) (blank : Blank gap) :
    Written atof text values := by
  obtain ⟨front, behind, split, objects, blankBehind⟩ := written
  cases objects with
  | none =>
    rw [nil_append] at split
    refine ⟨[], text, rfl, .none, ?_⟩
    intro byte member
    exact blankBehind byte (by rw [← split]; exact mem_append_right _ member)
  | @more own object rest value values blankOwn isObject later =>
    rw [append_assoc] at split
    rcases append_eq_append_iff.mp split with ⟨left, ownSplit, textSplit⟩ | ⟨inner, gapSplit, objectSplit⟩
    · refine ⟨left ++ (object ++ rest), behind, by rw [textSplit]; simp, .more ?_ isObject later, blankBehind⟩
      intro byte member
      exact blankOwn byte (by rw [ownSplit]; exact mem_append_right _ member)
    · -- the object starts with a brace, which is not blank
      cases inner with
      | nil =>
        refine ⟨object ++ rest, behind, by simpa using objectSplit.symm, ?_, blankBehind⟩
        have empty : Blank ([] : Bytes) := by simp [Blank]
        exact .more empty isObject later
      | cons byte inner =>
        obtain ⟨body, shape⟩ := isObject.braces
        rw [shape] at objectSplit
        have brace : Ascii.openBrace = byte := (List.cons.inj objectSplit).1
        have braceBlank := blank byte (by rw [gapSplit]; simp)
        rw [← brace] at braceBlank
        exact absurd braceBlank (by decide)

/-! ### Packing up to a cut -/

theorem behind_nil : Parser.init.behind [] 0 = Parser.init := rfl

theorem Objects.run_init (objects : Objects atof before values) :
    ∃ tokens bytes, (∀ rest, Parser.init.run (before ++ rest) = (Parser.init.behind tokens before.length).run rest) ∧
      (∀ token ∈ tokens, token.isOpen = false) ∧ (tokens = [] ↔ values = []) ∧ Unpacks bytes values ∧
      ∀ after, values ≠ [] → ∃ records, tokensToMsgpack atof tokens (before ++ after) =
        some { bytes, lastByte := before.length, records } := by
  obtain ⟨tokens, ran, closed, empty, last, bytes, unpacks, packed⟩ := objects.run [] 0
  rw [behind_nil] at ran
  simp only [nil_append, Nat.zero_add] at ran last
  refine ⟨tokens, bytes, ran, fun token member => (closed token member).1, empty, unpacks, ?_⟩
  intro after some
  have found := packed [] after rfl
  rw [nil_append] at found
  obtain ⟨records, done⟩ := @packTokens_eq atof _ _ { bytes := [], lastByte := 0, records := 0 } _
    (fun token member => (closed token member).2) found
  refine ⟨records, ?_⟩
  rw [tokensToMsgpack, if_neg (fun none => some (empty.mp none)), done, last, if_neg some]
  rfl

theorem delimiter_eq {tokens inner : List Token} {root : Token} (top : root.parent = none) (isOpen : root.stop = none)
    (below : ∀ token ∈ inner, token.parent ≠ none) :
    delimiter (tokens ++ root :: inner) ((tokens ++ root :: inner).length - 1) =
      if tokens = [] then none else some tokens.length := by
  have walk : ∀ count, count ≤ inner.length →
      delimiter (tokens ++ root :: inner) (tokens.length + count) = if tokens = [] then none else some tokens.length := by
    intro count
    induction count with
    | zero =>
      intro _
      cases size : tokens.length with
      | zero =>
        obtain rfl := length_eq_zero_iff.mp size
        rfl
      | succ last =>
        have found : (tokens ++ root :: inner)[last + 1]? = some root := by
          rw [← size, List.getElem?_append_right (Nat.le_refl _)]
          simp
        have nonempty : tokens ≠ [] := by
          rintro rfl
          cases size
        simp [delimiter, found, top, isOpen, nonempty]
    | succ count ih =>
      intro bound
      obtain ⟨token, found⟩ : ∃ token, inner[count]? = some token := ⟨_, List.getElem?_eq_getElem (by omega)⟩
      have place : (tokens ++ root :: inner)[tokens.length + count + 1]? = some token := by
        rw [List.getElem?_append_right (by omega), show tokens.length + count + 1 - tokens.length = count + 1 by omega]
        exact found
      have parent := below token (mem_of_getElem? found)
      rw [← Nat.add_assoc, delimiter, place]
      simp only [Option.any_some, parent, decide_false, Bool.false_and, Bool.false_eq_true, if_false]
      exact ih (by omega)
  have last : (tokens ++ root :: inner).length - 1 = tokens.length + inner.length := by
    simp only [length_append, length_cons]
    omega
  rw [last]
  exact walk inner.length (Nat.le_refl _)

def Resumes (state : PackState) (text : Bytes) : Prop :=
  ∀ more, jsonTokenise (text ++ more) state = jsonTokenise (text ++ more) .init

theorem resumes_init : Resumes .init text := fun _ => rfl

theorem tokenise_objects (objects : Objects atof before values) (isPending : Pending atof pending) :
    ∃ tokens bytes, (tokens = [] ↔ values = []) ∧ Unpacks bytes values ∧
      (∀ after, values ≠ [] → ∃ records, tokensToMsgpack atof tokens (before ++ after) =
        some { bytes, lastByte := before.length, records }) ∧
      ((∃ parser : Parser, Blank pending ∧ parser.tokens = tokens ∧
          jsonTokenise (before ++ pending) .init = (none, { parser, tokensCount := tokens.length, lastByte := 0 })) ∨
        ∃ (parser : Parser) (inner : List Token), parser.tokens = tokens ++ inner ∧
          delimiter parser.tokens (parser.tokens.length - 1) = (if tokens = [] then none else some tokens.length) ∧
          jsonTokenise (before ++ pending) .init = (some .part, { parser, tokensCount := 0, lastByte := 0 })) := by
  obtain ⟨tokens, bytes, ran, closed, empty, unpacks, packed⟩ := objects.run_init
  refine ⟨tokens, bytes, empty, unpacks, packed, ?_⟩
  have start : Parser.init.parse (before ++ pending) =
      Parser.finished ((Parser.init.behind tokens before.length).run pending) := by
    rw [Parser.init_parse, ran]
  cases isPending with
  | blank blank =>
    have through := Parser.run_blank tokens before.length blank []
    rw [append_nil, Parser.run_nil] at through
    refine .inl ⟨Parser.init.behind tokens (before.length + pending.length), blank, ?_, ?_⟩
    · simp [Parser.behind, Parser.init, shifted]
    · have noOpen : (tokens.any fun token => token.isOpen) = false := by
        simpa using closed
      have outcome : Parser.init.parse (before ++ pending) =
          (.ok tokens.length, Parser.init.behind tokens (before.length + pending.length)) := by
        rw [start, through]
        simp [Parser.finished, Parser.behind, Parser.init, shifted, noOpen]
      simp [jsonTokenise, PackState.init, outcome]
  | @part gap text first second value blank object split some more =>
    obtain ⟨status, root, inner, fine, isOpen, top, below, next, shape, partial'⟩ := object.run_part split some more
    have through := Parser.run_blank tokens before.length blank first
    rw [partial'] at through
    have shiftedOpen : (root.shift (before.length + gap.length) tokens.length).isOpen = true := by
      simp [Token.isOpen, Token.shift, isOpen]
    have shapeBehind : (next.behind tokens (before.length + gap.length)).tokens =
        tokens ++ root.shift (before.length + gap.length) tokens.length ::
          inner.map (Token.shift (before.length + gap.length) tokens.length) := by
      simp [Parser.behind, shifted, shape]
    refine .inr ⟨next.behind tokens (before.length + gap.length), _, shapeBehind, ?_, ?_⟩
    · rw [shapeBehind]
      apply delimiter_eq
      · simp [Token.shift, top]
      · simp [Token.shift, isOpen]
      · intro token member
        obtain ⟨source, there, rfl⟩ := mem_map.mp member
        simpa [Token.shift] using below source there
    · have outcome : Parser.init.parse (before ++ (gap ++ first)) =
          (.error .part, next.behind tokens (before.length + gap.length)) := by
        rw [start, through]
        cases status with
        | none => simp [Parser.finished, shapeBehind, shiftedOpen]
        | some failure =>
          cases failure with
          | inval => exact absurd rfl fine
          | part => rfl
      simp [jsonTokenise, PackState.init, outcome]

theorem Pending.clean (isPending : Pending atof pending) : 0 ∉ pending := by
  cases isPending with
  | blank blank => exact fun member => (blank_byte 0 (blank 0 member)).1 rfl
  | part blank object split some more =>
    intro member
    rcases mem_append.mp member with inGap | inFirst
    · exact (blank_byte 0 (blank 0 inGap)).1 rfl
    · exact object.clean (by rw [split]; exact mem_append_left _ inFirst)

theorem resumes_of_part {state : PackState} (clean : 0 ∉ text) (counts : state.tokensCount = 0 ∧ state.lastByte = 0)
    (tokenised : jsonTokenise text .init = (some .part, state)) : Resumes state text := by
  have parsed : Parser.init.parse text = (.error .part, state.parser) := by
    unfold jsonTokenise at tokenised
    split at tokenised
    · cases tokenised
    next parser outcome =>
      cases tokenised
      exact outcome
    · cases tokenised
  obtain ⟨status, fine, ran⟩ : ∃ status, status ≠ some Failure.inval ∧ Parser.init.run text = (status, state.parser) := by
    rw [Parser.init_parse] at parsed
    unfold Parser.finished at parsed
    split at parsed
    next failure next outcome =>
      cases parsed
      exact ⟨_, by simp, outcome⟩
    next next outcome =>
      split at parsed
      · cases parsed
        exact ⟨none, by simp, outcome⟩
      · cases parsed
  intro more
  have same : state.parser.parse (text ++ more) = Parser.init.parse (text ++ more) := by
    have resumed := Parser.run_resume clean ran more
    rw [show Parser.init.pos = 0 from rfl, Nat.sub_zero] at resumed
    rw [Parser.parse_eq, Parser.init_parse, ← resumed]
  obtain ⟨parser, count, last⟩ := state
  obtain ⟨rfl, rfl⟩ := counts
  simp only at same
  simp [jsonTokenise, PackState.init, same]

/-- The packer takes the whole objects and leaves the one that is not closed. -/
theorem packJsonState_objects (objects : Objects atof before values) (isPending : Pending atof pending)
    {state : PackState} (same : jsonTokenise (before ++ pending) state = jsonTokenise (before ++ pending) .init) :
    (values ≠ [] ∧ ∃ bytes next, Unpacks bytes values ∧ next.lastByte = before.length ∧
      packJsonState atof (before ++ pending) state = (.ok bytes, next)) ∨
    (values = [] ∧ Blank pending ∧ ∃ next, packJsonState atof (before ++ pending) state = (.error .inval, next)) ∨
    values = [] ∧ ∃ next, Resumes next pending ∧ packJsonState atof (before ++ pending) state = (.error .part, next) := by
  obtain ⟨tokens, bytes, empty, unpacks, packed, ended | inside⟩ := tokenise_objects objects isPending
  · obtain ⟨parser, blank, shape, tokenised⟩ := ended
    rw [packJsonState, same, tokenised]
    by_cases none : values = []
    · obtain rfl := empty.mpr none
      exact .inr (.inl ⟨none, blank, _, rfl⟩)
    · obtain ⟨records, done⟩ := packed pending none
      have some : tokens.length ≠ 0 := by simpa [empty] using none
      refine .inl ⟨none, bytes, { parser, tokensCount := tokens.length, lastByte := before.length }, unpacks, rfl, ?_⟩
      simp [packCounted, some, shape, done]
  · obtain ⟨parser, inner, shape, delim, tokenised⟩ := inside
    rw [packJsonState, same, tokenised]
    by_cases none : values = []
    · obtain rfl := empty.mpr none
      have before_nil := objects.eq_nil_iff.mpr none
      have resumes := resumes_of_part (by rw [before_nil]; exact isPending.clean) ⟨rfl, rfl⟩ tokenised
      rw [before_nil, nil_append] at resumes
      refine .inr (.inr ⟨none, _, resumes, ?_⟩)
      simp [delim]
    · obtain ⟨records, done⟩ := packed pending none
      have nonempty : tokens ≠ [] := fun isEmpty => none (empty.mp isEmpty)
      have some : tokens.length ≠ 0 := by simpa using nonempty
      refine .inl ⟨none, bytes, { parser, tokensCount := tokens.length, lastByte := before.length }, unpacks, rfl, ?_⟩
      rw [if_neg nonempty] at delim
      simp only [delim]
      simp [packCounted, some, shape, done]

end

end FluentBit.Json
