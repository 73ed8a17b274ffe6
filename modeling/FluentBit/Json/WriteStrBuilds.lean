import FluentBit.Json.Write
import Mathlib.Data.List.TakeWhile

/-! The two builds of the string writer. The build without vectors writes the string character by
character; the other one also copies blocks as they are. They agree on a string, whatever the
buffer and the memory behind the string, if and only if the blocks that are copied lie in the
string and hold whole characters that need no escape. -/

set_option autoImplicit false

namespace FluentBit.Json

open List Nat Option Ascii

variable {byte : UInt8} {rest : Bytes}

/-! ### One character -/

inductive Shape (byte : UInt8) (rest : Bytes) : Step → Prop where
  | escaped {out : Bytes} (escape : jsonEscape byte = some out) :
      Shape byte rest { out, used := 1, counter := none, breaks := false }
  | plain (noEscape : jsonEscape byte = none) (ascii : byte < 0x80) :
      Shape byte rest { out := [byte], used := 1, counter := none, breaks := false }
  | truncated (lead : 0xc0 ≤ byte) (short : rest.length + 1 < utf8Len byte) :
      Shape byte rest { out := [], used := 1, counter := none, breaks := true }
  | stray (continuation : isContinuation byte = true) :
      Shape byte rest { out := fragment byte, used := 1, counter := some 1, breaks := false }
  | whole (lead : 0xc0 ≤ byte) (long : utf8Len byte ≤ rest.length + 1)
      (complete : (sequenceBytes byte rest).length = utf8Len byte) :
      Shape byte rest
        { out := sequenceBytes byte rest, used := (sequenceBytes byte rest).length, counter := none, breaks := false }
  | broken (lead : 0xc0 ≤ byte) (long : utf8Len byte ≤ rest.length + 1)
      (incomplete : (sequenceBytes byte rest).length ≠ utf8Len byte) :
      Shape byte rest
        { out := (sequenceBytes byte rest).flatMap fragment, used := (sequenceBytes byte rest).length,
          counter := some (sequenceBytes byte rest).length, breaks := false }

theorem lead_len : ∀ byte : UInt8, 0xc0 ≤ byte → 2 ≤ utf8Len byte := by
  apply forall_byte
  decide +kernel

theorem continuation_len (byte : UInt8) (continues : byte < 0xc0) : utf8Len byte = 1 := if_pos continues

theorem utf8Len_le (byte : UInt8) : 1 ≤ utf8Len byte ∧ utf8Len byte ≤ 6 := by
  unfold utf8Len
  repeat' split
  all_goals decide

theorem nextStep_shape (byte : UInt8) (rest : Bytes) : Shape byte rest (nextStep byte rest) := by
  unfold nextStep
  split
  next out escape => exact .escaped escape
  next noEscape =>
    split
    next ascii => exact .plain noEscape ascii
    next notAscii =>
      have high : 0x80 ≤ byte := UInt8.not_lt.mp notAscii
      split
      next short =>
        refine .truncated ?_ short
        by_contra low
        rw [continuation_len byte (UInt8.not_le.mp low)] at short
        omega
      next long =>
        have long : utf8Len byte ≤ rest.length + 1 := by omega
        split
        next low =>
          refine .stray ?_
          simp [isContinuation, high, low]
        next lead =>
          have lead : 0xc0 ≤ byte := UInt8.not_lt.mp lead
          simp only
          split
          next complete => exact .whole lead long complete
          next incomplete => exact .broken lead long incomplete

theorem sequenceBytes_begins (byte : UInt8) (rest : Bytes) :
    (byte :: rest).take (sequenceBytes byte rest).length = sequenceBytes byte rest := by
  have shorter : (rest.take (utf8Len byte - 1)).takeWhile isContinuation <+: rest :=
    ( takeWhile_prefix _).trans ( take_prefix _ _)
  rw [sequenceBytes, length_cons, take_succ_cons, ← prefix_iff_eq_take.mp shorter]

theorem sequenceBytes_length (byte : UInt8) (rest : Bytes) :
    1 ≤ (sequenceBytes byte rest).length ∧ (sequenceBytes byte rest).length ≤ rest.length + 1 ∧
      (sequenceBytes byte rest).length ≤ utf8Len byte := by
  have shorter := ( takeWhile_prefix isContinuation (l := rest.take (utf8Len byte - 1))).length_le
  have := utf8Len_le byte
  rw [length_take] at shorter
  simp only [sequenceBytes, length_cons]
  omega

variable {step : Step}

theorem Shape.used (shape : Shape byte rest step) : 1 ≤ step.used ∧ step.used ≤ rest.length + 1 := by
  have bounds := sequenceBytes_length byte rest
  cases shape with
  | escaped | plain | truncated | stray => exact ⟨Nat.le_refl _, by simp⟩
  | whole | broken => exact ⟨bounds.1, bounds.2.1⟩

theorem escape_head : ∀ byte : UInt8, isContinuation byte = false ∧
    ((jsonEscape byte).all fun out => out.head? = some backslash) = true ∨ jsonEscape byte = none := by
  apply forall_byte
  decide +kernel

theorem not_continuation_of_lt (ascii : byte < 0x80) : isContinuation byte = false := by
  simp [isContinuation, UInt8.not_le.mpr ascii]

theorem not_continuation_of_le (lead : 0xc0 ≤ byte) : isContinuation byte = false := by
  simp [isContinuation, UInt8.not_lt.mpr lead]

theorem escape_backslash {out : Bytes} (escape : jsonEscape byte = some out) : ∃ others, out = backslash :: others := by
  rcases escape_head byte with ⟨_, backslash⟩ | noEscape
  · rw [escape, all_some, decide_eq_true_eq] at backslash
    exact ⟨out.tail, eq_cons_of_mem_head? backslash⟩
  · simp [noEscape] at escape

theorem Shape.head (shape : Shape byte rest step) (goesOn : step.breaks = false) :
    ∃ first, step.out.head? = some first ∧ isContinuation first = false ∧
      (isContinuation byte = true → first = 0xee) := by
  cases shape with
  | escaped escape =>
    rcases escape_head byte with ⟨notContinuation, backslash⟩ | noEscape
    · rw [escape, all_some, decide_eq_true_eq] at backslash
      exact ⟨_, backslash, by decide, by simp [notContinuation]⟩
    · simp [noEscape] at escape
  | plain noEscape ascii =>
    have notContinuation := not_continuation_of_lt ascii
    exact ⟨byte, rfl, notContinuation, by simp [notContinuation]⟩
  | truncated => cases goesOn
  | stray => exact ⟨0xee, rfl, by decide, fun _ => rfl⟩
  | whole lead =>
    have notContinuation := not_continuation_of_le lead
    exact ⟨byte, rfl, notContinuation, by simp [notContinuation]⟩
  | broken lead => exact ⟨0xee, rfl, by decide, fun _ => rfl⟩

def escapeLoop : Nat → Bytes → Bytes
  | 0, _ => []
  | _ + 1, [] => []
  | fuel + 1, byte :: rest =>
    (nextStep byte rest).out ++ escapeLoop fuel ((byte :: rest).drop (nextStep byte rest).used)

def escapeText (rest : Bytes) : Bytes := escapeLoop rest.length rest

@[simp] theorem escapeText_nil : escapeText [] = [] := rfl

theorem escapeLoop_fuel {first second : Nat} (enough : rest.length ≤ first) (alsoEnough : rest.length ≤ second) :
    escapeLoop first rest = escapeLoop second rest := by
  induction first generalizing rest second with
  | zero =>
    obtain rfl := length_eq_zero_iff.mp (le_zero.mp enough)
    cases second with
    | zero => rfl
    | succ second => rfl
  | succ first ih =>
    cases rest with
    | nil =>
      cases second with
      | zero => rfl
      | succ second => rfl
    | cons byte rest =>
      rw [length_cons] at enough alsoEnough
      cases second with
      | zero => omega
      | succ second =>
        have used := (nextStep_shape byte rest).used
        rw [escapeLoop, escapeLoop, ih]
        all_goals
          simp only [length_drop, length_cons]
          omega

theorem escapeText_cons : escapeText (byte :: rest) =
      (nextStep byte rest).out ++ escapeText ((byte :: rest).drop (nextStep byte rest).used) := by
  have used := (nextStep_shape byte rest).used
  rw [escapeText, length_cons, escapeLoop, escapeLoop_fuel _ (Nat.le_refl _)]
  · rfl
  · simp only [length_drop, length_cons]
    omega

theorem escapeText_head (rest : Bytes) : (∀ first ∈ (escapeText rest).head?, isContinuation first = false) ∧
      ∀ byte ∈ rest.head?, isContinuation byte = true → (escapeText rest).head? = some 0xee := by
  induction measure : rest.length using Nat.strongRecOn generalizing rest with
  | ind size ih =>
    cases rest with
    | nil => simp
    | cons byte rest =>
      rw [escapeText_cons]
      have shape := nextStep_shape byte rest
      have used := shape.used
      cases goesOn : (nextStep byte rest).breaks with
      | false =>
        obtain ⟨first, head, notContinuation, stray⟩ := shape.head goesOn
        rw [List.head?_append, head]
        constructor
        · intro other member
          cases member
          exact notContinuation
        · intro other member continuation
          cases member
          rw [stray continuation]
          rfl
      | true =>
        rw [length_cons] at measure
        obtain ⟨later, _⟩ := ih _ (by simp only [length_drop, length_cons]; omega)
          ((byte :: rest).drop (nextStep byte rest).used) rfl
        generalize nextStep byte rest = step at shape goesOn later
        cases shape with
        | truncated lead short =>
          refine ⟨later, ?_⟩
          intro other member continuation
          cases member
          simp [not_continuation_of_le lead] at continuation
        | escaped | plain | stray | whole | broken => cases goesOn

/-- The letter `z`, which no escape holds. -/
abbrev filler : UInt8 := 0x7a

theorem count_escape : ∀ byte : UInt8,
    ((jsonEscape byte).all fun out => out.count filler = 0 ∧ byte ≠ filler) = true := by
  apply forall_byte
  decide +kernel

theorem count_fragment : ∀ byte : UInt8, (fragment byte).count filler = 0 := by
  apply forall_byte
  decide +kernel

theorem ne_filler (byte : UInt8) (high : 0x80 ≤ byte) : byte ≠ filler := by
  rintro rfl
  exact absurd high (by decide)

theorem mem_sequenceBytes {other : UInt8} (lead : 0xc0 ≤ byte) (member : other ∈ sequenceBytes byte rest) :
    0x80 ≤ other := by
  rcases mem_cons.mp member with rfl | member
  · exact UInt8.le_trans (by decide) lead
  · have continuation := mem_takeWhile_imp member
    simp only [isContinuation, Bool.and_eq_true, decide_eq_true_eq] at continuation
    exact continuation.1

theorem Shape.count (shape : Shape byte rest step) :
    step.out.count filler = ((byte :: rest).take step.used).count filler := by
  have single : ∀ other, other ≠ filler → ((other :: rest).take 1).count filler = 0 := by
    intro other different
    simp [count_eq_zero, Ne.symm different]
  have among (lead : 0xc0 ≤ byte) : (sequenceBytes byte rest).count filler = 0 := by
    apply count_eq_zero.mpr
    intro member
    exact ne_filler filler (mem_sequenceBytes lead member) rfl
  cases shape with
  | escaped escape =>
    have known := count_escape byte
    rw [escape, all_some, decide_eq_true_eq] at known
    rw [known.1, single byte known.2]
  | plain noEscape ascii => simp
  | truncated lead => rw [single byte (ne_filler byte (UInt8.le_trans (by decide) lead)), count_nil]
  | stray continuation =>
    simp only [isContinuation, Bool.and_eq_true, decide_eq_true_eq] at continuation
    rw [count_fragment, single byte (ne_filler byte continuation.1)]
  | whole lead long complete => rw [sequenceBytes_begins]
  | broken lead long incomplete =>
    rw [sequenceBytes_begins, among lead, count_eq_zero]
    intro member
    obtain ⟨source, _, inside⟩ := mem_flatMap.mp member
    exact count_eq_zero.mp (count_fragment source) inside

theorem escapeText_count (rest : Bytes) : (escapeText rest).count filler = rest.count filler := by
  induction measure : rest.length using Nat.strongRecOn generalizing rest with
  | ind size ih =>
    cases rest with
    | nil => rfl
    | cons byte rest =>
      have shape := nextStep_shape byte rest
      have used := shape.used
      rw [length_cons] at measure
      have later := ih _ (by simp only [length_drop, length_cons]; omega)
        ((byte :: rest).drop (nextStep byte rest).used) rfl
      rw [escapeText_cons, count_append, later, shape.count, ← count_append, take_append_drop]

/-! ### Bytes that are written as they are -/

inductive PlainText : Bytes → Prop where
  | nil : PlainText []
  | ascii {byte : UInt8} {rest : Bytes} (ascii : byte < 0x80) (noEscape : jsonEscape byte = none)
      (later : PlainText rest) : PlainText (byte :: rest)
  | sequence {byte : UInt8} {tail rest : Bytes} (lead : 0xc0 ≤ byte)
      (continuation : ∀ other ∈ tail, isContinuation other = true) (complete : tail.length + 1 = utf8Len byte)
      (later : PlainText rest) : PlainText (byte :: (tail ++ rest))

theorem jsonEscape_lead : ∀ byte : UInt8, 0x80 ≤ byte → jsonEscape byte = none := by
  apply forall_byte
  decide +kernel

theorem sequenceBytes_append {tail : Bytes} (continuation : ∀ other ∈ tail, isContinuation other = true)
    (complete : tail.length + 1 = utf8Len byte) (rest : Bytes) : sequenceBytes byte (tail ++ rest) = byte :: tail := by
  rw [sequenceBytes, ← complete, Nat.add_sub_cancel, take_left, takeWhile_eq_self_iff.mpr continuation]

theorem PlainText.escapeText {text : Bytes} (isPlain : PlainText text) (rest : Bytes) :
    escapeText (text ++ rest) = text ++ escapeText rest := by
  induction isPlain with
  | nil => rfl
  | @ascii byte later isAscii noEscape _ ih =>
    rw [cons_append, escapeText_cons]
    simp only [nextStep, noEscape, isAscii, if_true, drop_succ_cons, drop_zero, ih]
    rfl
  | @sequence byte tail later lead continuation complete _ ih =>
    have bytes := sequenceBytes_append continuation complete (later ++ rest)
    have noEscape := jsonEscape_lead byte (UInt8.le_trans (by decide) lead)
    have notAscii : ¬ byte < 0x80 := UInt8.not_lt.mpr (UInt8.le_trans (by decide) lead)
    have notStray : ¬ byte < 0xc0 := UInt8.not_lt.mpr lead
    have long : ¬ (tail ++ (later ++ rest)).length + 1 < utf8Len byte := by
      simp only [length_append]
      omega
    rw [cons_append, append_assoc, escapeText_cons]
    simp only [nextStep, noEscape, notAscii, notStray, long, if_false, bytes, length_cons, complete, if_true]
    rw [← complete, drop_succ_cons, drop_left, ih]
    simp

structure Follows (left after : Bytes) : Prop where
  head : ∀ first ∈ after.head?, isContinuation first = false
  stray : ∀ byte ∈ left.head?, isContinuation byte = true → after.head? = some 0xee
  ended : left = [] → after = []

theorem fragment_stray : ∀ byte : UInt8, isContinuation byte = true → byte ≠ 0xee ∧ fragment byte = [0xee, 0x82, byte] := by
  apply forall_byte
  decide +kernel

theorem escapeText_first {first : UInt8} (head : (escapeText rest).head? = some first) :
    first < 0x80 ∨ first = 0xee ∨ utf8Len first ≤ rest.length := by
  induction rest with
  | nil => simp at head
  | cons byte rest ih =>
    rw [escapeText_cons] at head
    have shape := nextStep_shape byte rest
    generalize nextStep byte rest = step at shape head
    cases shape with
    | escaped escape =>
      obtain ⟨backslash, isHead⟩ := escape_backslash escape
      rw [isHead, cons_append, List.head?_cons] at head
      cases head
      exact .inl (by decide)
    | plain noEscape ascii =>
      cases head
      exact .inl ascii
    | truncated lead short =>
      rcases ih head with ascii | fragments | long
      · exact .inl ascii
      · exact .inr (.inl fragments)
      · exact .inr (.inr (le_succ_of_le long))
    | stray continuation =>
      cases head
      exact .inr (.inl rfl)
    | whole lead long complete =>
      cases head
      exact .inr (.inr long)
    | broken lead long incomplete =>
      cases head
      exact .inr (.inl rfl)

theorem escapeText_single {last : UInt8} (head : (escapeText [last]).head? = some 0xee) :
    isContinuation last = true ∧ escapeText [last] = [0xee, 0x82, last] := by
  have shape := nextStep_shape last []
  have lengths := sequenceBytes_length last []
  rw [escapeText_cons] at head ⊢
  generalize nextStep last [] = step at shape head ⊢
  cases shape with
  | escaped escape =>
    obtain ⟨backslash, isHead⟩ := escape_backslash escape
    rw [isHead] at head
    cases head
  | plain noEscape ascii =>
    cases head
    exact absurd ascii (by decide)
  | truncated lead short => cases head
  | stray continuation =>
    refine ⟨continuation, ?_⟩
    rw [(fragment_stray last continuation).2]
    rfl
  | whole lead long complete =>
    have := lead_len last lead
    simp only [length_nil] at long
    omega
  | broken lead long incomplete =>
    simp only [length_nil] at long
    omega

theorem sequenceBytes_split (complete : (sequenceBytes byte rest).length = utf8Len byte) :
    ∃ tail later, rest = tail ++ later ∧ (∀ other ∈ tail, isContinuation other = true) ∧
      tail.length + 1 = utf8Len byte ∧ sequenceBytes byte rest = byte :: tail := by
  have isPrefix := sequenceBytes_begins byte rest
  have split := take_append_drop (sequenceBytes byte rest).length (byte :: rest)
  rw [isPrefix] at split
  refine ⟨(rest.take (utf8Len byte - 1)).takeWhile isContinuation, (byte :: rest).drop (sequenceBytes byte rest).length,
    ?_, fun other member => mem_takeWhile_imp member, complete, rfl⟩
  exact ((List.cons.inj split).2).symm

section

variable {count : Nat} {after : Bytes}

theorem not_copied_truncated (lead : 0xc0 ≤ byte) (short : rest.length + 1 < utf8Len byte)
    (follows : Follows (rest.drop count) after) : byte :: (rest.take count ++ after) ≠ escapeText rest := by
  intro same
  have head : (escapeText rest).head? = some byte := by rw [← same, List.head?_cons]
  rcases escapeText_first head with ascii | rfl | long
  · exact UInt8.lt_irrefl _ (UInt8.lt_of_lt_of_le ascii (UInt8.le_trans (by decide) lead))
  · cases rest with
    | nil => cases head
    | cons last rest =>
      obtain rfl : rest = [] := by
        have width : utf8Len 0xee = 3 := by decide
        simp only [length_cons] at short
        exact length_eq_zero_iff.mp (by omega)
      obtain ⟨continuation, written⟩ := escapeText_single head
      rw [written] at same
      have tails := (List.cons.inj same).2
      cases count with
      | zero =>
        rw [take_zero, nil_append] at tails
        have := follows.head 0x82 (by rw [tails]; rfl)
        cases this
      | succ count =>
        have none := follows.ended (by simp)
        rw [none] at tails
        have lengths := congrArg List.length tails
        simp at lengths
  · omega

theorem not_copied_inside {tail later : Bytes} (continuation : ∀ other ∈ tail, isContinuation other = true)
    (short : count < tail.length) (head : ∀ first ∈ after.head?, isContinuation first = false) :
    (tail ++ later).take count ++ after ≠ tail ++ escapeText later := by
  intro same
  rw [take_append_of_le_length (Nat.le_of_lt short)] at same
  have split := take_append_drop count tail
  nth_rewrite 2 [← split] at same
  rw [append_assoc, append_cancel_left_eq] at same
  cases shape : tail.drop count with
  | nil =>
    rw [drop_eq_nil_iff] at shape
    omega
  | cons next others =>
    have goesOn := continuation next (mem_of_mem_drop (by rw [shape]; exact mem_cons_self ..))
    have := head next (by rw [same, shape]; rfl)
    rw [goesOn] at this
    cases this

theorem not_copied_broken (lead : 0xc0 ≤ byte) (incomplete : (sequenceBytes byte rest).length ≠ utf8Len byte)
    (inside : count ≤ rest.length) (head : ∀ first ∈ after.head?, isContinuation first = false) (later : Bytes) :
    byte :: (rest.take count ++ after) ≠ (sequenceBytes byte rest).flatMap fragment ++ later := by
  intro same
  obtain ⟨rfl, tails⟩ := List.cons.inj same
  cases count with
  | zero =>
    rw [take_zero, nil_append] at tails
    have := head 0x83 (by rw [tails]; rfl)
    cases this
  | succ count =>
    cases rest with
    | nil => simp at inside
    | cons second rest =>
      rw [take_succ_cons, cons_append] at tails
      obtain ⟨rfl, tails⟩ := List.cons.inj tails
      cases count with
      | zero =>
        rw [take_zero, nil_append] at tails
        have := head 0xae (by rw [tails]; rfl)
        cases this
      | succ count =>
        cases rest with
        | nil => simp at inside
        | cons third rest =>
          obtain ⟨rfl, tails⟩ := List.cons.inj tails
          exact incomplete rfl

theorem copied_is_plain (inside : count ≤ rest.length) (clean : ∀ byte ∈ rest.take count, isSpecial byte = false)
    (follows : Follows (rest.drop count) after) (same : rest.take count ++ after = escapeText rest) :
    PlainText (rest.take count) ∧ after = escapeText (rest.drop count) := by
  induction count using Nat.strongRecOn generalizing rest with
  | ind count ih =>
    cases count with
    | zero => exact ⟨.nil, same⟩
    | succ count =>
      cases rest with
      | nil => simp at inside
      | cons byte rest =>
        rw [take_succ_cons] at clean same ⊢
        rw [drop_succ_cons] at follows ⊢
        rw [length_cons] at inside
        have notSpecial := clean byte (mem_cons_self ..)
        rw [escapeText_cons, cons_append] at same
        have shape := nextStep_shape byte rest
        generalize nextStep byte rest = step at shape same
        cases shape with
        | escaped escape =>
          obtain ⟨others, isHead⟩ := escape_backslash escape
          rw [isHead, cons_append] at same
          rw [(List.cons.inj same).1] at notSpecial
          cases notSpecial
        | plain noEscape ascii =>
          obtain ⟨isPlain, later⟩ := ih count (lt_succ_self _) (by omega)
            (fun other member => clean other (mem_cons_of_mem _ member)) follows (by simpa using same)
          exact ⟨.ascii ascii noEscape isPlain, later⟩
        | truncated lead short => exact absurd same (not_copied_truncated lead short follows)
        | stray continuation =>
          obtain ⟨different, fragments⟩ := fragment_stray byte continuation
          exact absurd (List.cons.inj same).1 different
        | whole lead long complete =>
          obtain ⟨tail, later, rfl, continuation, width, bytes⟩ := sequenceBytes_split complete
          rw [bytes, cons_append, length_cons, drop_succ_cons, drop_left] at same
          have tails := (List.cons.inj same).2
          by_cases fits : tail.length ≤ count
          · obtain ⟨more, rfl⟩ := Nat.exists_eq_add_of_le fits
            rw [take_length_add_append] at clean tails ⊢
            rw [drop_length_add_append] at follows ⊢
            rw [length_append] at inside
            rw [append_assoc, append_cancel_left_eq] at tails
            obtain ⟨isPlain, rest⟩ := ih more (by omega) (by omega)
              (fun other member => clean other (mem_cons_of_mem _ (mem_append_right _ member)))
              follows tails
            exact ⟨.sequence lead continuation width isPlain, rest⟩
          · exact absurd tails (not_copied_inside continuation (by omega) follows.head)
        | broken lead long incomplete =>
          exact absurd same (not_copied_broken lead incomplete (by omega) follows.head _)

end

/-! ### Rounds -/

section

variable {lanes : Lanes} {tail : Nat} {beyond : Bytes}

theorem characters_text (lanes : Lanes) (fuel b : Nat) (rest : Bytes) :
    (characters lanes fuel b rest).1.flatten ++ escapeText (characters lanes fuel b rest).2 = escapeText rest := by
  induction fuel generalizing b rest with
  | zero => rfl
  | succ fuel ih =>
    cases rest with
    | nil => rfl
    | cons byte rest =>
      simp only [characters]
      split
      · rfl
      · split
        next breaks =>
          rw [escapeText_cons]
          have shape := nextStep_shape byte rest
          generalize nextStep byte rest = step at shape breaks ⊢
          cases shape with
          | truncated lead short => rfl
          | escaped | plain | stray | whole | broken => cases breaks
        · rw [flatten_cons, append_assoc, ih, ← escapeText_cons]

theorem characters_shorter (lanes : Lanes) (fuel b : Nat) (rest : Bytes) :
    (characters lanes fuel b rest).2.length ≤ rest.length := by
  induction fuel generalizing b rest with
  | zero => exact Nat.le_refl _
  | succ fuel ih =>
    cases rest with
    | nil => exact Nat.le_refl _
    | cons byte rest =>
      simp only [characters]
      split
      · exact Nat.le_refl _
      · split
        · simp only [length_drop]
          omega
        · have := ih ((nextStep byte rest).counter.getD b + 1) ((byte :: rest).drop (nextStep byte rest).used)
          simp only [length_drop] at this ⊢
          omega

variable {fuel clean : Nat}

theorem characters_lt (lanes : Lanes) (some : 0 < lanes.width) (enough : 0 < fuel) (byte : UInt8) (rest : Bytes) :
    (characters lanes fuel 0 (byte :: rest)).2.length < rest.length + 1 := by
  have used := (nextStep_shape byte rest).used
  cases fuel with
  | zero => omega
  | succ fuel =>
    simp only [characters]
    rw [if_neg (by omega)]
    split
    · simp only [length_drop, length_cons]
      omega
    · have := characters_shorter lanes fuel ((nextStep byte rest).counter.getD 0 + 1)
        ((byte :: rest).drop (nextStep byte rest).used)
      simp only [length_drop, length_cons] at this ⊢
      omega

theorem noSimd_clean : cleanLength noSimd tail beyond fuel rest = 0 := by
  cases fuel with
  | zero => rfl
  | succ fuel =>
    have special : ∀ block, noSimd.special block = true := fun _ => (by decide : hasLe 0 0x1f = true)
    simp [cleanLength, special]

theorem noSimd_text (enough : rest.length ≤ fuel) :
    (pieces noSimd tail beyond fuel rest).flatten = escapeText rest := by
  induction fuel generalizing rest with
  | zero =>
    obtain rfl := length_eq_zero_iff.mp (le_zero.mp enough)
    rfl
  | succ fuel ih =>
    have text := characters_text noSimd rest.length 0 rest
    simp only [pieces, noSimd_clean, if_true, nil_append, drop_zero, flatten_append]
    rw [← text]
    congr 1
    split
    next none => rw [none, flatten_nil, escapeText_nil]
    next some =>
      apply ih
      cases rest with
      | nil => exact absurd rfl some
      | cons byte rest =>
        have := characters_lt noSimd (by decide) (by omega : 0 < rest.length + 1) byte rest
        simp only [length_cons] at this enough ⊢
        omega

theorem special_append (first second : Bytes) (special : sse2.special first = true) :
    sse2.special (first ++ second) = true := by
  simp only [sse2, any_append, Bool.or_eq_true] at special ⊢
  exact .inl special

theorem cleanLength_beyond (beyond : Bytes) (inside : cleanLength sse2 tail [] fuel rest ≤ rest.length) :
    cleanLength sse2 tail beyond fuel rest = cleanLength sse2 tail [] fuel rest := by
  induction fuel generalizing rest with
  | zero => rfl
  | succ fuel ih =>
    have width : sse2.width = 16 := rfl
    simp only [cleanLength, append_nil, width] at inside ⊢
    split at inside
    next clean =>
      have same : (rest ++ beyond).take 16 = rest.take 16 := take_append_of_le_length (by omega)
      have room : cleanLength sse2 tail [] fuel (rest.drop 16) ≤ (rest.drop 16).length := by
        simp only [length_drop]
        omega
      have later := ih room
      simp only [same, clean, and_self, if_true, later]
    next dirty =>
      have still : ¬ (tail < rest.length ∧ sse2.special ((rest ++ beyond).take 16) = false) := by
        rintro ⟨long, clean⟩
        apply dirty
        refine ⟨long, ?_⟩
        cases special : sse2.special (rest.take 16) with
        | false => rfl
        | true =>
          rw [take_append, special_append _ _ special] at clean
          cases clean
      simp only [still, dirty, if_false]

theorem cleanLength_filler :
    cleanLength sse2 tail (List.replicate 16 filler) fuel rest = cleanLength sse2 tail [] fuel rest := by
  induction fuel generalizing rest with
  | zero => rfl
  | succ fuel ih =>
    have same : sse2.special ((rest ++ List.replicate 16 filler).take 16) = sse2.special (rest.take 16) := by
      have plain : ∀ count, ((List.replicate 16 filler).take count).any isSpecial = false := by
        intro count
        apply any_eq_false.mpr
        intro byte member
        rw [eq_of_mem_replicate (mem_of_mem_take member)]
        decide
      simp only [sse2, take_append, any_append, plain, Bool.or_false]
    have width : sse2.width = 16 := rfl
    simp only [cleanLength, append_nil, width, same, ih]

theorem cleanLength_clean (member : byte ∈ rest.take (cleanLength sse2 tail [] fuel rest)) :
    isSpecial byte = false := by
  induction fuel generalizing rest with
  | zero => simp [cleanLength] at member
  | succ fuel ih =>
    have width : sse2.width = 16 := rfl
    simp only [cleanLength, append_nil, width] at member
    split at member
    next clean =>
      rw [take_add] at member
      rcases mem_append.mp member with first | later
      · have all := any_eq_false.mp clean.2 byte first
        simpa using all
      · exact ih later
    · simp at member

theorem cleanLength_ge (some : cleanLength sse2 tail [] fuel rest ≠ 0) : 16 ≤ cleanLength sse2 tail [] fuel rest := by
  cases fuel with
  | zero => exact absurd rfl some
  | succ fuel =>
    have width : sse2.width = 16 := rfl
    simp only [cleanLength, append_nil, width] at some ⊢
    split
    · omega
    next dirty => simp [dirty] at some

def leftAfter (clean : Nat) (rest : Bytes) : Bytes :=
  (characters sse2 (rest.drop clean).length 0 (rest.drop clean)).2

def CopiesPlain (tail : Nat) : Nat → Bytes → Prop
  | 0, _ => True
  | fuel + 1, rest =>
    let clean := cleanLength sse2 tail [] rest.length rest
    clean ≤ rest.length ∧ PlainText (rest.take clean) ∧ CopiesPlain tail fuel (leftAfter clean rest)

theorem pieces_nil (fuel : Nat) : (pieces sse2 tail beyond fuel []).flatten = [] := by
  cases fuel with
  | zero => rfl
  | succ fuel => rfl

theorem pieces_round (isClean : cleanLength sse2 tail beyond rest.length rest = clean) :
    (pieces sse2 tail beyond (fuel + 1) rest).flatten = (rest ++ beyond).take clean ++
        ((characters sse2 (rest.drop clean).length 0 (rest.drop clean)).1.flatten ++
          (pieces sse2 tail beyond fuel (leftAfter clean rest)).flatten) := by
  have bulk : (if clean = 0 then [] else [(rest ++ beyond).take clean]).flatten = (rest ++ beyond).take clean := by
    split
    next none => simp [none]
    · simp
  have later : (if leftAfter clean rest = [] then [] else pieces sse2 tail beyond fuel (leftAfter clean rest)).flatten =
      (pieces sse2 tail beyond fuel (leftAfter clean rest)).flatten := by
    split
    next none => rw [none, pieces_nil, flatten_nil]
    · rfl
  simp only [pieces, isClean, flatten_append, bulk, append_assoc]
  rw [← later]
  rfl

theorem leftAfter_le (clean : Nat) (enough : rest.length ≤ fuel + 1) : (leftAfter clean rest).length ≤ fuel := by
  cases shape : rest.drop clean with
  | nil => simp [leftAfter, shape, characters]
  | cons byte left =>
    have less := characters_lt sse2 (by decide) (by simp : 0 < (byte :: left).length) byte left
    have := congrArg List.length shape
    simp only [length_drop, length_cons] at this
    simp only [leftAfter, shape] at less ⊢
    omega

theorem copies_same (beyond : Bytes) (enough : rest.length ≤ fuel) (copies : CopiesPlain tail fuel rest) :
    (pieces sse2 tail beyond fuel rest).flatten = escapeText rest := by
  induction fuel generalizing rest with
  | zero =>
    obtain rfl := length_eq_zero_iff.mp (le_zero.mp enough)
    rfl
  | succ fuel ih =>
    obtain ⟨inside, isPlain, later⟩ := copies
    have same := cleanLength_beyond beyond inside
    rw [pieces_round same, take_append_of_le_length inside, ih (leftAfter_le _ enough) later, leftAfter,
      characters_text, ← isPlain.escapeText, take_append_drop]

def vectorText (tail fuel : Nat) (rest : Bytes) : Bytes :=
  (pieces sse2 tail (List.replicate 16 filler) fuel rest).flatten

theorem vectorText_round (isClean : cleanLength sse2 tail [] rest.length rest = clean) :
    vectorText tail (fuel + 1) rest = (rest ++ List.replicate 16 filler).take clean ++
        ((characters sse2 (rest.drop clean).length 0 (rest.drop clean)).1.flatten ++
          vectorText tail fuel (leftAfter clean rest)) :=
  pieces_round (cleanLength_filler.trans isClean)

theorem count_overrun (overrun : rest.length < clean) :
    rest.count filler < ((rest ++ List.replicate 16 filler).take clean).count filler := by
  rw [take_append, take_of_length_le (Nat.le_of_lt overrun), count_append, take_replicate, count_replicate_self]
  omega

theorem count_characters (fuel b : Nat) (rest : Bytes) :
    (characters sse2 fuel b rest).1.flatten.count filler + (characters sse2 fuel b rest).2.count filler =
      rest.count filler := by
  have text := congrArg (List.count filler) (characters_text sse2 fuel b rest)
  rwa [count_append, escapeText_count, escapeText_count] at text

theorem short_text {fuel : Nat} (short : rest.length < 16) (enough : rest.length ≤ fuel) :
    vectorText tail fuel rest = escapeText rest ∨ rest.count filler < (vectorText tail fuel rest).count filler := by
  induction fuel generalizing rest with
  | zero =>
    obtain rfl := length_eq_zero_iff.mp (le_zero.mp enough)
    exact .inl rfl
  | succ fuel ih =>
    rw [vectorText_round rfl]
    by_cases none : cleanLength sse2 tail [] rest.length rest = 0
    · have counts := count_characters rest.length 0 rest
      have shorter := characters_shorter sse2 rest.length 0 rest
      have left := leftAfter_le 0 enough
      simp only [none, take_zero, nil_append, drop_zero, leftAfter] at left ⊢
      rcases ih (Nat.lt_of_le_of_lt shorter short) left with same | more
      · rw [same, characters_text]
        exact .inl rfl
      · rw [count_append]
        exact .inr (by omega)
    · have wide := cleanLength_ge none
      have more := count_overrun (Nat.lt_of_lt_of_le short wide)
      rw [count_append]
      exact .inr (by omega)

theorem follows_block {fuel : Nat} (left : Bytes) (enough : left.length ≤ fuel + 1)
    (counts : ((characters sse2 left.length 0 left).1.flatten ++
      vectorText tail fuel (leftAfter 0 left)).count filler = left.count filler) :
    Follows left ((characters sse2 left.length 0 left).1.flatten ++ vectorText tail fuel (leftAfter 0 left)) := by
  cases left with
  | nil =>
    have none : vectorText tail fuel (leftAfter 0 []) = [] := pieces_nil fuel
    rw [none]
    exact ⟨by simp [characters], by simp, fun _ => rfl⟩
  | cons byte rest =>
    have shape := nextStep_shape byte rest
    have width : ¬ sse2.width ≤ 0 := by decide
    simp only [length_cons, leftAfter, drop_zero, characters, width, if_false] at counts ⊢
    cases breaks : (nextStep byte rest).breaks with
    | false =>
      obtain ⟨first, head, notContinuation, stray⟩ := shape.head breaks
      obtain ⟨others, written⟩ : ∃ others, (nextStep byte rest).out = first :: others :=
        ⟨_, eq_cons_of_mem_head? head⟩
      simp only [Bool.false_eq_true, if_false, written, flatten_cons, cons_append]
      constructor
      · intro other member
        cases member
        exact notContinuation
      · intro other member continuation
        cases member
        rw [stray continuation]
        rfl
      · intro none
        cases none
    | true =>
      -- the sequence is cut off by the end of the string, so that little is left of it
      simp only [breaks, if_true, flatten_nil, nil_append] at counts ⊢
      generalize nextStep byte rest = step at shape breaks counts ⊢
      cases shape with
      | truncated lead short =>
        have limit := (utf8Len_le byte).2
        simp only [drop_succ_cons, drop_zero] at counts ⊢
        have byteCount : (byte :: rest).count filler = rest.count filler := by
          rw [count_cons_of_ne (ne_filler byte (UInt8.le_trans (by decide) lead))]
        rw [length_cons] at enough
        rcases @short_text rest tail fuel (by omega) (by omega) with same | more
        · rw [same]
          refine ⟨(escapeText_head rest).1, ?_, fun none => by cases none⟩
          intro other member continuation
          cases member
          simp [not_continuation_of_le lead] at continuation
        · omega
      | escaped | plain | stray | whole | broken => cases breaks

theorem same_copies (enough : rest.length ≤ fuel) (same : vectorText tail fuel rest = escapeText rest) :
    CopiesPlain tail fuel rest := by
  induction fuel generalizing rest with
  | zero => trivial
  | succ fuel ih =>
    rw [vectorText_round rfl] at same
    have total := congrArg (List.count filler) same
    rw [escapeText_count, count_append] at total
    have inside : cleanLength sse2 tail [] rest.length rest ≤ rest.length := by
      by_contra overrun
      have more := count_overrun (Nat.lt_of_not_le overrun)
      omega
    rw [take_append_of_le_length inside] at same total
    have left : leftAfter (cleanLength sse2 tail [] rest.length rest) rest =
        leftAfter 0 (rest.drop (cleanLength sse2 tail [] rest.length rest)) := rfl
    have split := congrArg (List.count filler) (take_append_drop (cleanLength sse2 tail [] rest.length rest) rest)
    rw [count_append] at split
    have follows := @follows_block tail fuel (rest.drop (cleanLength sse2 tail [] rest.length rest))
      (by simp only [length_drop]; omega) (by rw [← left]; omega)
    obtain ⟨isPlain, later⟩ := copied_is_plain inside (fun byte member => cleanLength_clean member) follows same
    have text := characters_text sse2 (rest.drop (cleanLength sse2 tail [] rest.length rest)).length 0
      (rest.drop (cleanLength sse2 tail [] rest.length rest))
    rw [← text, append_cancel_left_eq] at later
    exact ⟨inside, isPlain, ih (leftAfter_le _ enough) later⟩

end

theorem writeAll_eq (available : Nat) (pieces : List Bytes) :
    writeAll available pieces = if pieces.flatten.length ≤ available then some pieces.flatten else none := by
  induction pieces generalizing available with
  | nil => simp [writeAll]
  | cons piece later ih =>
    simp only [writeAll, ih, flatten_cons, length_append]
    split
    next short => rw [if_neg (by omega)]
    next fits =>
      by_cases all : later.flatten.length ≤ available - piece.length
      · rw [if_pos all, if_pos (by omega)]
        rfl
      · rw [if_neg all, if_neg (by omega)]
        rfl

theorem vectorText_eq (str : Bytes) :
    (pieces sse2 (str.length % sse2.width) (List.replicate 16 filler) str.length str).flatten =
      vectorText (str.length % 16) str.length str := rfl

theorem writeStr_eq (lanes : Lanes) (beyond : Bytes) (off size : Nat) (str : Bytes)
    {text : Bytes} (written : (pieces lanes (str.length % lanes.width) beyond str.length str).flatten = text) :
    writeStr lanes beyond off size str =
      if (if off ≤ size then size - off else 2 ^ 64 + size - off) < max str.length text.length then none
      else some text := by
  simp only [writeStr, writeAll_eq, written]
  generalize (if off ≤ size then size - off else 2 ^ 64 + size - off) = available
  split
  next short => rw [if_pos (by omega)]
  next long =>
    split
    next fits => rw [if_neg (by omega)]
    next tooLong => rw [if_pos (by omega)]

/-- Both builds give the same result and write the same bytes for a string, whatever the buffer and
the memory behind the string, if and only if the copied blocks hold plain text of the string. -/
theorem builds_agree_iff (str : Bytes) :
    (∀ beyond off size, writeStr sse2 beyond off size str = writeStr noSimd beyond off size str) ↔
      CopiesPlain (str.length % 16) str.length str := by
  have scalar (beyond : Bytes) :
      (pieces noSimd (str.length % noSimd.width) beyond str.length str).flatten = escapeText str :=
    noSimd_text (Nat.le_refl _)
  constructor
  · intro agree
    -- a buffer in which both texts fit
    have both := agree (List.replicate 16 filler) 0
      (str.length + (vectorText (str.length % 16) str.length str).length + (escapeText str).length)
    rw [writeStr_eq noSimd _ _ _ _ (scalar _),
      writeStr_eq sse2 _ _ _ _ (vectorText_eq str), if_neg (by simp; omega), if_neg (by simp; omega)] at both
    exact same_copies (Nat.le_refl _) (Option.some.inj both)
  · intro copies beyond off size
    have vector := copies_same beyond (Nat.le_refl _) copies
    rw [writeStr_eq noSimd _ _ _ _ (scalar _), writeStr_eq sse2 _ _ _ _ vector]

/-- The delete character is written as an escape by one build only. -/
theorem delete_not_escaped : ¬ ∀ str beyond off size,
    writeStr sse2 beyond off size str = writeStr noSimd beyond off size str := by
  intro agree
  have differ : writeStr sse2 [] 0 32 (List.replicate 15 0x61 ++ [0x7f]) ≠
      writeStr noSimd [] 0 32 (List.replicate 15 0x61 ++ [0x7f]) := by decide +kernel
  exact differ (agree _ _ _ _)

end FluentBit.Json
