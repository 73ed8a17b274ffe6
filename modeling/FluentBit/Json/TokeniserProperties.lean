import FluentBit.Json.Tokeniser

/-! What the tokeniser does from any state: it moves forward, it can be resumed on a longer text,
and what it makes of a text does not depend on the tokens before. -/

set_option autoImplicit false

namespace FluentBit.Json

open List Nat Option

variable {within : Within} {length : Nat} {byte : UInt8} {text rest : Bytes}

theorem map_ok {α β : Type} {result : Except Failure α} {f : α → β} {value : β} (ok : result.map f = .ok value) :
    ∃ inner, result = .ok inner ∧ f inner = value := by
  cases result with
  | error failure => cases ok
  | ok inner =>
    cases ok
    exact ⟨inner, rfl, rfl⟩

theorem scanPrimitive_lt (scanned : scanPrimitive text = .ok length) : length < text.length := by
  induction text generalizing length with
  | nil => cases scanned
  | cons byte text ih =>
    simp only [scanPrimitive] at scanned
    split at scanned
    · cases scanned
    · split at scanned
      · cases scanned
        simp
      · split at scanned
        · cases scanned
        · obtain ⟨inner, found, rfl⟩ := map_ok scanned
          simpa using ih found

theorem scanPrimitive_append (more : Bytes) (decided : scanPrimitive text ≠ .error .part) :
    scanPrimitive (text ++ more) = scanPrimitive text := by
  induction text with
  | nil => exact absurd rfl decided
  | cons byte text ih =>
    simp only [scanPrimitive, cons_append] at decided ⊢
    split
    · rfl
    · split
      · rfl
      · split
        · rfl
        next zero closing plain =>
          simp only [zero, closing, plain, if_false] at decided
          rw [ih]
          intro short
          simp [short] at decided
          exact decided rfl

theorem scanString_lt (scanned : scanString within text = .ok length) : length < text.length := by
  induction text generalizing within length with
  | nil => cases scanned
  | cons byte text ih =>
    simp only [scanString] at scanned
    split at scanned
    · cases scanned
      simp
    · cases scanned
    · obtain ⟨inner, found, rfl⟩ := map_ok scanned
      simpa using ih found

theorem scanString_append (more : Bytes) (decided : scanString within text ≠ .error .part) :
    scanString within (text ++ more) = scanString within text := by
  induction text generalizing within with
  | nil => exact absurd rfl decided
  | cons byte text ih =>
    simp only [scanString, cons_append] at decided ⊢
    split
    · rfl
    · rfl
    next next goes =>
      rw [ih]
      intro short
      simp [goes, short] at decided
      exact decided rfl

theorem primitive_byte : ∀ byte : UInt8,
    startsPrimitive byte = true → byte ≠ 0 ∧ endsPrimitive byte = false ∧ symbolOf byte = .primitive := by
  apply Ascii.forall_byte
  decide +kernel

theorem symbolOf_primitive : ∀ byte : UInt8, symbolOf byte = .primitive → startsPrimitive byte = true := by
  apply Ascii.forall_byte
  decide +kernel

theorem scanPrimitive_pos (starts : startsPrimitive byte = true) (scanned : scanPrimitive (byte :: rest) = .ok length) :
    0 < length := by
  obtain ⟨nonzero, inside, _⟩ := primitive_byte byte starts
  simp only [scanPrimitive, nonzero, inside, if_false, Bool.false_eq_true] at scanned
  split at scanned
  · cases scanned
  · obtain ⟨inner, _, rfl⟩ := map_ok scanned
    exact succ_pos inner

variable {tokens : List Token} {token : Token}

theorem ancestor_get {fuel start index : Nat} (found : ancestor tokens fuel start = some (index, token)) :
    tokens[index]? = some token := by
  induction fuel generalizing start with
  | zero => cases found
  | succ fuel ih =>
    simp only [ancestor] at found
    split at found
    · cases found
    next here place =>
      split at found
      · cases found
        exact place
      · split at found
        · cases found
          exact place
        · exact ih found

variable {status : Option Failure}

namespace Parser

variable {parser next : Parser}

inductive Round (parser : Parser) : Parser → Prop where
  | opened (type : Kind) : Round parser (parser.pushed type)
  | closed {index : Nat} {token : Token} (found : parser.tokens[index]? = some token) (isOpen : token.isOpen = true) :
      Round parser (parser.ended index token)
  | moved {toksuper : Option Nat}
      (place : toksuper = parser.toksuper ∨ toksuper = parser.lastIndex ∨ toksuper = parser.behindComma) :
      Round parser (parser.moved toksuper)
  | leaf (type : Kind) {start stop pos : Nat} (inside : parser.pos ≤ start) (ordered : start ≤ stop) (before : stop ≤ pos)
      (forward : parser.pos < pos) : Round parser (parser.leaf type start stop pos)

theorem round_of_advance (advanced : parser.advance byte rest = .ok next) :
    Round parser next ∧ next.pos ≤ parser.pos + (rest.length + 1) := by
  unfold advance at advanced
  split at advanced
  next type _ =>
    unfold opened at advanced
    split at advanced
    · cases advanced
    · cases advanced
      exact ⟨.opened type, by simp [pushed]⟩
  next type _ =>
    unfold closed at advanced
    split at advanced
    · cases advanced
    next index token found =>
      split at advanced
      next isOpen =>
        split at advanced
        · cases advanced
        · cases advanced
          exact ⟨.closed (ancestor_get found) isOpen, by simp [ended]⟩
      · split at advanced
        · cases advanced
        · cases advanced
          exact ⟨.moved (.inl rfl), by simp [moved]⟩
  · obtain ⟨length, scanned, rfl⟩ := map_ok advanced
    have bound := scanString_lt scanned
    have last : parser.pos + 2 + length ≤ parser.pos + (rest.length + 1) := by omega
    exact ⟨.leaf .string (by omega) (by omega) (by omega) (by omega), last⟩
  · cases advanced
    exact ⟨.moved (.inl rfl), by simp [moved]⟩
  · cases advanced
    exact ⟨.moved (.inr (.inl rfl)), by simp [moved]⟩
  · cases advanced
    exact ⟨.moved (.inr (.inr rfl)), by simp [moved]⟩
  next symbol =>
    split at advanced
    · cases advanced
    · obtain ⟨length, scanned, rfl⟩ := map_ok advanced
      have bound := scanPrimitive_lt scanned
      have positive := scanPrimitive_pos (symbolOf_primitive _ symbol) scanned
      rw [length_cons] at bound
      have last : parser.pos + length ≤ parser.pos + (rest.length + 1) := by omega
      exact ⟨.leaf .primitive (by omega) (by omega) (by omega) (by omega), last⟩
  · cases advanced

theorem Round.forward (round : Round parser next) : parser.pos < next.pos := by
  cases round with
  | opened type | closed found isOpen | moved place => exact lt_succ_self _
  | leaf type inside ordered before forward => exact forward

theorem advance_append (more : Bytes) (decided : parser.advance byte rest ≠ .error .part) :
    parser.advance byte (rest ++ more) = parser.advance byte rest := by
  unfold advance at decided ⊢
  split
  · rfl
  · rfl
  next symbol =>
    rw [scanString_append]
    intro short
    simp [symbol, short] at decided
    exact decided rfl
  · rfl
  · rfl
  · rfl
  next symbol =>
    split
    · rfl
    next accepted =>
      rw [← cons_append, scanPrimitive_append]
      intro short
      simp [symbol, accepted, short] at decided
      exact decided rfl
  · rfl

theorem loop_fuel {first second : Nat} (enough : text.length ≤ first) (alsoEnough : text.length ≤ second) :
    parser.loop first text = parser.loop second text := by
  induction first generalizing parser text second with
  | zero =>
    obtain rfl : text = [] := length_eq_zero_iff.mp (by omega)
    cases second with
    | zero => rfl
    | succ second => rfl
  | succ first ih =>
    cases text with
    | nil =>
      cases second with
      | zero => rfl
      | succ second => rfl
    | cons byte rest =>
      rw [length_cons] at enough alsoEnough
      cases second with
      | zero => omega
      | succ second =>
        simp only [loop]
        split
        · rfl
        · split
          · rfl
          next next advanced =>
            have forward := (round_of_advance advanced).1.forward
            have shorter : ((byte :: rest).drop (next.pos - parser.pos)).length ≤ rest.length := by
              simp only [length_drop, length_cons]
              omega
            exact ih (by omega) (by omega)

def run (parser : Parser) (text : Bytes) : Option Failure × Parser := parser.loop text.length text

@[simp] theorem run_nil : parser.run [] = (none, parser) := rfl

theorem run_cons (nonzero : byte ≠ 0) : parser.run (byte :: rest) = match parser.advance byte rest with
      | .error failure => (some failure, parser)
      | .ok next => next.run ((byte :: rest).drop (next.pos - parser.pos)) := by
  simp only [run, length_cons, loop, nonzero, if_false]
  cases advanced : parser.advance byte rest with
  | error failure => rfl
  | ok next =>
    have forward := (round_of_advance advanced).1.forward
    apply loop_fuel _ (Nat.le_refl _)
    simp only [length_drop, length_cons]
    omega

theorem run_induction {holds : Parser → Bytes → Prop} (ended : status = none → holds next [])
    (failed : ∀ byte rest failure, byte ≠ 0 → next.advance byte rest = .error failure → status = some failure →
      holds next (byte :: rest))
    (round : ∀ parser byte rest middle, byte ≠ 0 → parser.advance byte rest = .ok middle → Round parser middle →
      parser.pos < middle.pos → middle.pos - parser.pos ≤ (byte :: rest).length →
      0 ∉ (byte :: rest).drop (middle.pos - parser.pos) →
      middle.run ((byte :: rest).drop (middle.pos - parser.pos)) = (status, next) →
      holds middle ((byte :: rest).drop (middle.pos - parser.pos)) → holds parser (byte :: rest))
    (clean : 0 ∉ text) (ran : parser.run text = (status, next)) : holds parser text := by
  induction measure : text.length using Nat.strongRecOn generalizing parser text with
  | ind size ih =>
    cases text with
    | nil =>
      cases ran
      exact ended rfl
    | cons byte rest =>
      obtain ⟨nonzero, later⟩ := not_or.mp (mem_cons.not.mp clean)
      rw [run_cons (Ne.symm nonzero)] at ran
      cases advanced : parser.advance byte rest with
      | error failure =>
        rw [advanced] at ran
        cases ran
        exact failed byte rest failure (Ne.symm nonzero) advanced rfl
      | ok middle =>
        rw [advanced] at ran
        obtain ⟨goes, bound⟩ := round_of_advance advanced
        have forward := goes.forward
        have cleanLater : 0 ∉ (byte :: rest).drop (middle.pos - parser.pos) :=
          fun member => clean (mem_of_mem_drop member)
        have inside : middle.pos - parser.pos ≤ (byte :: rest).length := by
          simp only [length_cons]
          omega
        apply round parser byte rest middle (Ne.symm nonzero) advanced goes forward inside cleanLater ran
        apply ih _ _ cleanLater ran rfl
        simp only [length_drop, ← measure, length_cons]
        omega

theorem run_bounds (clean : 0 ∉ text) (ran : parser.run text = (status, next)) :
    parser.pos ≤ next.pos ∧ next.pos ≤ parser.pos + text.length ∧
      (status = none → next.pos = parser.pos + text.length) := by
  apply run_induction _ _ _ clean ran
  · exact fun _ => ⟨Nat.le_refl _, Nat.le_add_right _ _, fun _ => rfl⟩
  · intro byte rest failure _ _ stopped
    exact ⟨Nat.le_refl _, Nat.le_add_right _ _, fun done => by cases stopped.symm.trans done⟩
  · intro parser byte rest middle _ _ _ forward inside _ _ bounds
    rw [length_drop] at bounds
    obtain ⟨first, second, third⟩ := bounds
    refine ⟨by omega, by omega, ?_⟩
    intro done
    have := third done
    omega

theorem run_inval (clean : 0 ∉ text) (ran : parser.run text = (some .inval, next)) (more : Bytes) :
    parser.run (text ++ more) = (some .inval, next) := by
  apply run_induction _ _ _ clean ran
  · intro ended
    cases ended
  · intro byte rest failure nonzero advanced stopped
    cases stopped
    rw [cons_append, run_cons nonzero, advance_append more (by simp [advanced]), advanced]
  · intro parser byte rest middle nonzero advanced _ _ inside _ _ later
    rw [cons_append, run_cons nonzero, advance_append more (by simp [advanced]), advanced]
    simp only
    rw [← cons_append, drop_append_of_le_length inside]
    exact later

/-- The tokeniser goes on where it stopped. -/
theorem run_resume (clean : 0 ∉ text) (ran : parser.run text = (status, next)) (more : Bytes) :
    parser.run (text ++ more) = next.run ((text ++ more).drop (next.pos - parser.pos)) := by
  apply run_induction _ _ _ clean ran
  · intro _
    simp
  · intro byte rest failure _ _ _
    simp
  · intro parser byte rest middle nonzero advanced _ forward inside cleanLater ran resumed
    obtain ⟨further, _, _⟩ := run_bounds cleanLater ran
    rw [← drop_append_of_le_length inside, drop_drop] at resumed
    rw [cons_append, run_cons nonzero, advance_append more (by simp [advanced]), advanced]
    simp only
    rw [← cons_append, resumed]
    congr 2
    omega

end Parser

/-! ### Tokens that stay -/

structure Token.Keeps (before after : Token) : Prop where
  type : after.type = before.type
  start : after.start = before.start
  parent : after.parent = before.parent
  stop : before.stop ≠ none → after.stop = before.stop

theorem Token.Keeps.rfl : token.Keeps token := ⟨Eq.refl _, Eq.refl _, Eq.refl _, fun _ => Eq.refl _⟩

theorem Token.Keeps.trans {first second third : Token} (left : first.Keeps second) (right : second.Keeps third) :
    first.Keeps third where
  type := right.type.trans left.type
  start := right.start.trans left.start
  parent := right.parent.trans left.parent
  stop := by
    intro closed
    have same := left.stop closed
    rw [right.stop (by rwa [same]), same]

def Extends (before after : List Token) : Prop :=
  ∀ (index : Nat) (token : Token), before[index]? = some token → ∃ later, after[index]? = some later ∧ token.Keeps later

theorem Extends.rfl : Extends tokens tokens := fun _ token found => ⟨token, found, .rfl⟩

theorem Extends.trans {first second third : List Token} (left : Extends first second) (right : Extends second third) :
    Extends first third := by
  intro index token found
  obtain ⟨later, there, kept⟩ := left index token found
  obtain ⟨last, atLast, keptLater⟩ := right index later there
  exact ⟨last, atLast, kept.trans keptLater⟩

theorem Extends.append (tokens more : List Token) : Extends tokens (tokens ++ more) := by
  intro index token found
  refine ⟨token, ?_, .rfl⟩
  rw [List.getElem?_append_left (List.getElem?_eq_some_iff.mp found).1, found]

theorem Extends.modify {index : Nat} {change : Token → Token}
    (kept : ∀ token, tokens[index]? = some token → token.Keeps (change token)) :
    Extends tokens (tokens.modify index change) := by
  intro place token found
  rw [List.getElem?_modify, found]
  by_cases here : index = place
  · subst here
    exact ⟨change token, by simp, kept token found⟩
  · exact ⟨token, by simp [here], .rfl⟩

theorem Extends.parent_lt {before after : List Token} (later : Extends before after)
    (linked : ∀ (index : Nat) (token : Token) (parent : Nat), before[index]? = some token → token.parent = some parent → parent < index)
    {index parent : Nat} (inside : index < before.length) (found : after[index]? = some token)
    (above : token.parent = some parent) : parent < index := by
  obtain ⟨there, place, kept⟩ := later index _ (List.getElem?_eq_getElem inside)
  rw [found] at place
  cases place
  rw [kept.parent] at above
  exact linked index _ parent (List.getElem?_eq_getElem inside) above

namespace Parser

variable {parser next : Parser}

theorem extends_counted : Extends parser.tokens parser.counted := by
  unfold counted
  split
  · exact .rfl
  · apply Extends.modify
    intro token _
    exact ⟨rfl, rfl, rfl, fun _ => rfl⟩

@[simp] theorem length_counted : parser.counted.length = parser.tokens.length := by
  unfold counted
  split
  · rfl
  · exact length_modify ..

theorem Round.extends (round : Round parser next) : Extends parser.tokens next.tokens := by
  cases round with
  | @closed index token found isOpen =>
    apply Extends.modify
    intro here there
    refine ⟨rfl, rfl, rfl, ?_⟩
    intro closed
    rw [found] at there
    cases there
    simp [Token.isOpen, closed] at isOpen
  | moved place => exact .rfl
  | opened | leaf => exact extends_counted.trans (.append _ _)

theorem run_invariant {holds : Parser → Prop} (kept : ∀ parser next, Round parser next → holds parser → holds next)
    (clean : 0 ∉ text) (initial : holds parser) (ran : parser.run text = (status, next)) : holds next := by
  refine @run_induction _ _ _ _ (fun parser _ => holds parser → holds next) ?_ ?_ ?_ clean ran initial
  · exact fun _ => id
  · exact fun _ _ _ _ _ _ => id
  · intro parser byte rest middle _ _ round _ _ _ _ later here
    exact later (kept _ _ round here)

theorem run_extends (clean : 0 ∉ text) (ran : parser.run text = (status, next)) :
    Extends parser.tokens next.tokens := by
  apply run_invariant _ clean .rfl ran
  intro first second round before
  exact before.trans round.extends

def Bounded (parser : Parser) : Prop := ∀ token ∈ parser.tokens, ∀ stop ∈ token.stop, stop ≤ parser.pos

structure Sound (parser : Parser) : Prop where
  linked : ∀ (index : Nat) (token : Token) (parent : Nat),
    parser.tokens[index]? = some token → token.parent = some parent → parent < index
  superior : ∀ index ∈ parser.toksuper, index < parser.tokens.length

theorem bounded_init : Bounded .init := by
  intro token member
  cases member

theorem sound_init : Sound .init where
  linked := by
    intro index token parent found
    simp [init] at found
  superior := by
    intro index member
    cases member

theorem mem_counted (member : token ∈ parser.counted) : ∃ before ∈ parser.tokens, token.stop = before.stop := by
  unfold counted at member
  split at member
  · exact ⟨token, member, rfl⟩
  · obtain ⟨index, found⟩ := mem_iff_getElem?.mp member
    rw [List.getElem?_modify] at found
    obtain ⟨before, place, rfl⟩ := map_eq_some_iff.mp found
    refine ⟨before, mem_of_getElem? place, ?_⟩
    split
    · rfl
    · rfl

theorem Round.bounded (round : Round parser next) (bounded : parser.Bounded) : next.Bounded := by
  intro token member stop ends
  have forward := round.forward
  have earlier : ∀ before ∈ parser.tokens, token.stop = before.stop → stop ≤ next.pos := by
    intro before there same
    have := bounded before there stop (by rw [← same]; exact ends)
    omega
  cases round with
  | opened type =>
    rcases mem_append.mp member with old | new
    · obtain ⟨before, there, same⟩ := mem_counted old
      exact earlier before there same
    · rw [mem_singleton] at new
      subst new
      cases ends
  | @closed index open' found isOpen =>
    obtain ⟨place, there⟩ := mem_iff_getElem?.mp member
    simp only [ended, List.getElem?_modify] at there
    obtain ⟨before, was, rfl⟩ := map_eq_some_iff.mp there
    split at ends
    · cases ends
      exact Nat.le_refl _
    next elsewhere => exact earlier before (mem_of_getElem? was) (by simp [elsewhere])
  | moved place => exact earlier token member rfl
  | leaf type inside ordered before forward =>
    rcases mem_append.mp member with old | new
    · obtain ⟨before, there, same⟩ := mem_counted old
      exact earlier before there same
    · rw [mem_singleton] at new
      subst new
      cases ends
      exact before

theorem Sound.grows (sound : parser.Sound) {new : Token} (parent : new.parent = parser.toksuper) {index above : Nat}
    (found : (parser.counted ++ [new])[index]? = some token) (link : token.parent = some above) : above < index := by
  have inside := (List.getElem?_eq_some_iff.mp found).1
  simp only [length_append, length_counted, length_singleton] at inside
  by_cases old : index < parser.tokens.length
  · exact (extends_counted.trans (.append _ _)).parent_lt sound.linked old found link
  · obtain rfl : index = parser.counted.length := by
      rw [length_counted]
      omega
    rw [List.getElem?_concat_length] at found
    cases found
    rw [length_counted]
    exact sound.superior above (by rw [← parent, link]; rfl)

theorem Sound.round (sound : parser.Sound) (round : Round parser next) : next.Sound := by
  cases round with
  | opened type =>
    constructor
    · intro index token parent found link
      exact sound.grows rfl found link
    · intro index member
      cases member
      simp [pushed]
  | @closed place here found isOpen =>
    have later := (Round.closed found isOpen).extends
    constructor
    · intro index token parent there link
      have inside := (List.getElem?_eq_some_iff.mp there).1
      simp only [ended, length_modify] at inside
      exact later.parent_lt sound.linked inside there link
    · intro index member
      have below := sound.linked place here index found member
      have inside := (List.getElem?_eq_some_iff.mp found).1
      simp only [ended, length_modify]
      omega
  | @moved toksuper place =>
    refine ⟨sound.linked, ?_⟩
    intro index member
    simp only [moved] at member ⊢
    rcases place with rfl | rfl | rfl
    · exact sound.superior index member
    · unfold lastIndex at member
      split at member
      · cases member
      next some =>
        cases member
        have := length_pos_iff.mpr some
        omega
    · unfold behindComma at member
      split at member
      · exact sound.superior index member
      next token found =>
        split at member
        · exact sound.superior index member
        · obtain ⟨above, isAbove, there⟩ := bind_eq_some_iff.mp found
          have below := sound.linked above token index there member
          have inside := sound.superior above isAbove
          omega
  | leaf type inside ordered before forward =>
    constructor
    · intro index token parent found link
      exact sound.grows rfl found link
    · intro index member
      have := sound.superior index member
      simp only [leaf, length_append, length_counted]
      omega

end Parser

theorem ancestor_fuel
    (linked : ∀ (index : Nat) (token : Token) (parent : Nat), tokens[index]? = some token → token.parent = some parent → parent < index)
    {first second index : Nat} (enough : index < first) (alsoEnough : index < second) :
    ancestor tokens first index = ancestor tokens second index := by
  induction first generalizing second index with
  | zero => omega
  | succ first ih =>
    cases second with
    | zero => omega
    | succ second =>
      simp only [ancestor]
      split
      · rfl
      next token found =>
        split
        · rfl
        · split
          · rfl
          next parent link =>
            have below := linked index token parent found link
            exact ih (by omega) (by omega)

/-! ### A text behind other tokens -/

def Token.shift (offset base : Nat) (token : Token) : Token :=
  { token with
    start := offset + token.start
    stop := token.stop.map (offset + ·)
    parent := token.parent.map (base + ·) }

def shifted (before : List Token) (offset : Nat) (tokens : List Token) : List Token :=
  before ++ tokens.map (Token.shift offset before.length)

namespace Parser

def behind (before : List Token) (offset : Nat) (parser : Parser) : Parser where
  pos := offset + parser.pos
  tokens := shifted before offset parser.tokens
  toksuper := parser.toksuper.map (before.length + ·)

end Parser

section

variable (before : List Token) (offset : Nat)

theorem shifted_get (tokens : List Token) (index : Nat) : (shifted before offset tokens)[before.length + index]? =
      tokens[index]?.map (Token.shift offset before.length) := by
  rw [shifted, List.getElem?_append_right (Nat.le_add_right _ _), Nat.add_sub_cancel_left, List.getElem?_map]

@[simp] theorem length_shifted : (shifted before offset tokens).length = before.length + tokens.length := by
  simp [shifted]

theorem shifted_append (tokens more : List Token) : shifted before offset (tokens ++ more) =
      shifted before offset tokens ++ more.map (Token.shift offset before.length) := by
  simp [shifted]

theorem shifted_modify (tokens : List Token) (index : Nat) (change other : Token → Token)
    (same : ∀ token, (change token).shift offset before.length = other (token.shift offset before.length)) :
    (shifted before offset tokens).modify (before.length + index) other =
      shifted before offset (tokens.modify index change) := by
  apply ext_getElem?
  intro place
  by_cases inside : place < before.length
  · rw [List.getElem?_modify_ne _ _ (by omega), shifted, shifted, List.getElem?_append_left inside,
      List.getElem?_append_left inside]
  · obtain ⟨further, rfl⟩ := Nat.exists_eq_add_of_le (Nat.le_of_not_lt inside)
    rw [List.getElem?_modify, shifted_get, shifted_get, List.getElem?_modify]
    cases tokens[further]? with
    | none => rfl
    | some token =>
      by_cases here : index = further
      · simp [here, same]
      · simp [here]

theorem ancestor_shifted (fuel index : Nat) :
    ancestor (shifted before offset tokens) fuel (before.length + index) = (ancestor tokens fuel index).map fun found =>
        (before.length + found.1, found.2.shift offset before.length) := by
  induction fuel generalizing index with
  | zero => rfl
  | succ fuel ih =>
    simp only [ancestor, shifted_get]
    cases tokens[index]? with
    | none => rfl
    | some token =>
      have sameOpen : (token.shift offset before.length).isOpen = token.isOpen := by
        simp [Token.isOpen, Token.shift]
      simp only [map_some, sameOpen]
      split
      · rfl
      · cases link : token.parent with
        | none => simp [Token.shift, link]
        | some parent =>
          simp only [Token.shift, link, map_some]
          exact ih parent

namespace Parser

section

variable (parser : Parser)
include parser

theorem superior_behind :
    (parser.behind before offset).superior = parser.superior.map (Token.shift offset before.length) := by
  unfold superior behind
  cases parser.toksuper with
  | none => rfl
  | some index => exact shifted_get before offset parser.tokens index

theorem counted_behind : (parser.behind before offset).counted = shifted before offset parser.counted := by
  unfold counted behind
  cases parser.toksuper with
  | none => rfl
  | some index => exact shifted_modify before offset _ _ _ _ fun token => rfl

theorem leaf_behind (type : Kind) (start stop pos : Nat) :
    (parser.behind before offset).leaf type (offset + start) (offset + stop) (offset + pos) =
      (parser.leaf type start stop pos).behind before offset := by
  simp only [leaf, counted_behind]
  simp [behind, shifted_append, Token.shift]

theorem pushed_behind (type : Kind) :
    (parser.behind before offset).pushed type = (parser.pushed type).behind before offset := by
  simp only [pushed, counted_behind]
  simp [behind, shifted_append, Token.shift, Nat.add_assoc]

theorem ended_behind (index : Nat) :
    (parser.behind before offset).ended (before.length + index) (token.shift offset before.length) =
      (parser.ended index token).behind before offset := by
  have modified := shifted_modify before offset parser.tokens index
    (fun token => { token with stop := some (parser.pos + 1) })
    (fun token => { token with stop := some (offset + (parser.pos + 1)) }) (fun token => rfl)
  simp only [ended, behind, ← Nat.add_assoc] at modified ⊢
  rw [modified]
  rfl

theorem opened_behind (type : Kind) :
    (parser.behind before offset).opened type = (parser.opened type).map (·.behind before offset) := by
  have same : (parser.behind before offset).superiorIs .object = parser.superiorIs .object := by
    rw [superiorIs, superiorIs, superior_behind]
    cases parser.superior with
    | none => rfl
    | some token => rfl
  rw [opened, opened, same, pushed_behind, apply_ite (Except.map _)]
  rfl

end

variable {parser : Parser}

theorem closed_behind (sound : parser.Sound) (some : parser.tokens ≠ []) (type : Kind) :
    (parser.behind before offset).closed type = (parser.closed type).map (·.behind before offset) := by
  have positive := length_pos_iff.mpr some
  have walk : ancestor (parser.behind before offset).tokens (parser.behind before offset).tokens.length
        ((parser.behind before offset).tokens.length - 1) =
      (ancestor parser.tokens parser.tokens.length (parser.tokens.length - 1)).map fun found =>
        (before.length + found.1, found.2.shift offset before.length) := by
    have last : before.length + parser.tokens.length - 1 = before.length + (parser.tokens.length - 1) := by omega
    have enough : parser.tokens.length - 1 < before.length + parser.tokens.length := by omega
    have least : parser.tokens.length - 1 < parser.tokens.length := by omega
    simp only [behind, length_shifted]
    rw [last, ancestor_shifted, ancestor_fuel sound.linked enough least]
  unfold closed
  rw [walk]
  cases ancestor parser.tokens parser.tokens.length (parser.tokens.length - 1) with
  | none => rfl
  | some found =>
    obtain ⟨index, token⟩ := found
    have sameOpen : (token.shift offset before.length).isOpen = token.isOpen := by
      simp [Token.isOpen, Token.shift]
    have sameType : (token.shift offset before.length).type = token.type := rfl
    have sameSuper : ((parser.behind before offset).toksuper = none) = (parser.toksuper = none) := by
      simp [behind]
    simp only [map_some, sameOpen, sameType, sameSuper, ended_behind, apply_ite (Except.map _)]
    rfl

theorem lastIndex_behind (some : parser.tokens ≠ []) :
    (parser.behind before offset).lastIndex = parser.lastIndex.map (before.length + ·) := by
  have positive := length_pos_iff.mpr some
  have later : shifted before offset parser.tokens ≠ [] := by
    intro empty
    have := congrArg List.length empty
    simp only [length_shifted, length_nil] at this
    omega
  simp only [lastIndex, behind, some, later, if_false, length_shifted, map_some]
  congr 1
  omega

theorem behindComma_behind :
    (parser.behind before offset).behindComma = parser.behindComma.map (before.length + ·) := by
  unfold behindComma
  rw [superior_behind]
  cases parser.superior with
  | none => rfl
  | some token =>
    simp only [map_some, apply_ite (Option.map _)]
    rfl

theorem advance_behind (sound : parser.Sound) (some : parser.tokens ≠ []) (byte : UInt8) (rest : Bytes) :
    (parser.behind before offset).advance byte rest = (parser.advance byte rest).map (·.behind before offset) := by
  unfold advance
  split
  next type _ => exact opened_behind before offset parser type
  next type _ => exact closed_behind before offset sound some type
  · cases scanString .plain rest with
    | error failure => rfl
    | ok length =>
      simp only [Except.map]
      rw [← leaf_behind]
      simp [behind, Nat.add_assoc]
  · rfl
  · rw [lastIndex_behind before offset some]
    rfl
  · rw [behindComma_behind]
    rfl
  · have same : (parser.behind before offset).refusesPrimitive = parser.refusesPrimitive := by
      rw [refusesPrimitive, refusesPrimitive, superior_behind]
      cases parser.superior with
      | none => rfl
      | some token => rfl
    rw [same]
    split
    · rfl
    · cases scanPrimitive (byte :: rest) with
      | error failure => rfl
      | ok length =>
        simp only [Except.map]
        rw [← leaf_behind]
        simp [behind, Nat.add_assoc]
  · rfl

/-- The tokens of a text behind others are the same, further on. -/
theorem run_behind (sound : parser.Sound) (some : parser.tokens ≠ []) (clean : 0 ∉ text) :
    (parser.behind before offset).run text = ((parser.run text).1, (parser.run text).2.behind before offset) := by
  induction measure : text.length using Nat.strongRecOn generalizing parser text with
  | ind size ih =>
    cases text with
    | nil => rfl
    | cons byte rest =>
      obtain ⟨nonzero, later⟩ := not_or.mp (mem_cons.not.mp clean)
      rw [run_cons (Ne.symm nonzero), run_cons (Ne.symm nonzero), advance_behind before offset sound some]
      cases advanced : parser.advance byte rest with
      | error failure => rfl
      | ok next =>
        obtain ⟨round, bound⟩ := round_of_advance advanced
        have forward := round.forward
        have moved : (next.behind before offset).pos - (parser.behind before offset).pos = next.pos - parser.pos := by
          simp only [behind]
          omega
        have more : next.tokens ≠ [] := by
          obtain ⟨token, _, _⟩ := round.extends 0 _ (List.getElem?_eq_getElem (length_pos_iff.mpr some))
          rintro empty
          simp_all
        simp only [Except.map, moved]
        apply ih _ _ (sound.round round) more (fun member => clean (mem_of_mem_drop member)) rfl
        simp only [length_drop, ← measure, length_cons]
        omega

end Parser

end

end FluentBit.Json
