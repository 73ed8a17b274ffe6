import FluentBit.Foundation.Reading
import FluentBit.Parsers.Strptime

/-! Offsets of time zones, after `flb_parser_tzone_offset` in `src/flb_parser.c`, beside the conversion
`%z` of `flb_strptime`. A plain `char` is signed. -/

set_option autoImplicit false

namespace FluentBit.Strptime

open List Option Ascii Reading

/-- A `char` without that of the digit zero -/
def charDigit (byte : UInt8) : Int := (if byte < 0x80 then (byte.toNat : Int) else byte.toNat - 256) - 0x30

def twoChars (a b : UInt8) : Int := charDigit a * 10 + charDigit b

/-- `flb_parser_tzone_offset`: what `tmdiff` is set to, or nothing for `-1`. -/
def tzoneOffset (len : Nat) : Reading UInt8 (Option Int) := do
  let sign ← Reading.cell 0
  if sign = letter 'Z' then pure (some 0)
  else if sign ≠ letter '+' ∧ sign ≠ letter '-' then pure none
  else if len < 4 then pure none
  else
    let a ← Reading.cell 1
    let b ← Reading.cell 2
    let third ← if len - 1 = 5 then Reading.cell 3 else pure 0
    let start := if len - 1 = 5 ∧ third = colon then 4 else 3
    let c ← Reading.cell start
    let d ← Reading.cell (start + 1)
    let hour := twoChars a b
    let min := twoChars c d
    if hour < 0 ∨ 59 < hour ∨ min < 0 ∨ 59 < min then pure none
    else
      let tmdiff := hour * 3600 + min * 60
      pure (some (if sign = letter '-' then -tmdiff else tmdiff))

def Ranged (a b : UInt8) : Prop := 0 ≤ twoChars a b ∧ twoChars a b ≤ 59

def Digits (a b : UInt8) : Prop := isDigit a = true ∧ isDigit b = true

def signed (sign : UInt8) (offset : Int) : Int := if sign = letter '-' then -offset else offset

inductive Denotes : Bytes → Int → Prop where
  | zulu : Denotes [letter 'Z'] 0
  | plain {sign a b c d : UInt8} (isSign : sign = letter '+' ∨ sign = letter '-') (hour : Digits a b ∧ Ranged a b)
      (min : Digits c d ∧ Ranged c d) :
      Denotes [sign, a, b, c, d] (signed sign (twoChars a b * 3600 + twoChars c d * 60))
  | colon {sign a b c d : UInt8} (isSign : sign = letter '+' ∨ sign = letter '-') (hour : Digits a b ∧ Ranged a b)
      (min : Digits c d ∧ Ranged c d) :
      Denotes [sign, a, b, colon, c, d] (signed sign (twoChars a b * 3600 + twoChars c d * 60))

def textAt (memory : Nat → UInt8) (n : Nat) : Bytes := (List.range n).map memory

/-- The offset of a text is returned, and for no other text one; no byte behind the text is looked at,
and `%z` finds the same offset. -/
structure Exact (memory : Nat → UInt8) (n : Nat) : Prop where
  within : (tzoneOffset n).Within memory n
  denotes : ∀ offset, (tzoneOffset n).value memory = some offset ↔ Denotes (textAt memory n) offset
  agrees : ∀ offset, Denotes (textAt memory n) offset → ∀ others tm,
    flbStrptime others (textAt memory n) (ofString "%z") tm = some ({ tm with gmtoff := offset }, [])

theorem charDigit_digit {byte : UInt8} (isDigit : isDigit byte = true) : charDigit byte = digit byte := by
  have table : ∀ byte : UInt8, Ascii.isDigit byte = true → charDigit byte = digit byte := by
    apply forall_byte
    decide +kernel
  exact table byte isDigit

variable {a b c d : UInt8} {offset : Int}

theorem zoneDigits_plain (hour : Digits a b) (min : Digits c d) :
    zoneDigits [a, b, c, d] = some (twoChars a b * 3600 + twoChars c d * 60, []) := by
  have notColon : c ≠ colon := by
    rintro rfl
    exact absurd min.1 (by decide)
  simp only [zoneDigits, hour.1, hour.2, min.1, min.2, notColon, and_self, if_true, if_false, twoChars,
    charDigit_digit hour.1, charDigit_digit hour.2, charDigit_digit min.1, charDigit_digit min.2, Option.some.injEq,
    Prod.mk.injEq, and_true]
  omega

theorem zoneDigits_colon (hour : Digits a b) (min : Digits c d) :
    zoneDigits [a, b, colon, c, d] = some (twoChars a b * 3600 + twoChars c d * 60, []) := by
  rw [← zoneDigits_plain hour min]
  have notColon : c ≠ colon := by
    rintro rfl
    exact absurd min.1 (by decide)
  simp [zoneDigits, notColon]

variable {text : Bytes}

theorem strptime_zone (others : UInt8 → Step) (tm : Tm) (nonempty : text ≠ []) (found : zone text = some (offset, [])) :
    flbStrptime others text (ofString "%z") tm = some ({ tm with gmtoff := offset }, []) := by
  have format : ofString "%z" = [letter '%', letter 'z'] := rfl
  have blank : isSpace (letter '%') = false := by decide
  have conversion (nested : Bytes → Step) (s : Scan) : convert nested others (letter 'z') s text =
        (zone text).map fun found => ({ s with tm := { s.tm with gmtoff := found.1 } }, found.2) := rfl
  simp [flbStrptime, strptimeFrom, format, formatLoop, blank, nonempty, conversion, found, complete]

theorem zone_denotes (denotes : Denotes text offset) : zone text = some (offset, []) := by
  have plus (text : Bytes) : zone (letter '+' :: text) = zoneDigits text := rfl
  have minus (text : Bytes) : zone (letter '-' :: text) = (zoneDigits text).map fun found => (-found.1, found.2) := rfl
  cases denotes with
  | zulu => rfl
  | plain isSign hour min =>
    obtain rfl | rfl := isSign
    · rw [plus, zoneDigits_plain hour.1 min.1]
      rfl
    · rw [minus, zoneDigits_plain hour.1 min.1]
      rfl
  | colon isSign hour min =>
    obtain rfl | rfl := isSign
    · rw [plus, zoneDigits_colon hour.1 min.1]
      rfl
    · rw [minus, zoneDigits_colon hour.1 min.1]
      rfl

/-! ### The exact texts -/

def NumbersRanged (memory : Nat → UInt8) (n : Nat) : Prop :=
  Ranged (memory 1) (memory 2) ∧
    if n = 6 ∧ memory 3 = colon then Ranged (memory 4) (memory 5) else Ranged (memory 3) (memory 4)

/-- The texts that are read as they are written: `Z` alone, texts that start with something else, texts with
a sign that are shorter than four bytes, and longer ones that have digits only and no rest, or
numbers out of range. -/
def ReadRight (memory : Nat → UInt8) (n : Nat) : Prop :=
  n ≠ 0 ∧
    if memory 0 = letter 'Z' then n = 1
    else if memory 0 ≠ letter '+' ∧ memory 0 ≠ letter '-' then True
    else n < 4 ∨ 4 < n ∧ (NumbersRanged memory n → Digits (memory 1) (memory 2) ∧
      (n = 5 ∧ Digits (memory 3) (memory 4) ∨ n = 6 ∧ memory 3 = colon ∧ Digits (memory 4) (memory 5)))

variable {memory : Nat → UInt8} {n : Nat}

theorem denotes_cases (denotes : Denotes text offset) : text = [letter 'Z'] ∨ text.length = 5 ∨ text.length = 6 := by
  cases denotes with
  | zulu => exact .inl rfl
  | plain => exact .inr (.inl rfl)
  | colon => exact .inr (.inr rfl)

def minutesAt (memory : Nat → UInt8) (n : Nat) : Nat := if n = 6 ∧ memory 3 = colon then 4 else 3

theorem outcome_iff {sign : UInt8}
    {ranged : Decidable (twoChars a b < 0 ∨ 59 < twoChars a b ∨ twoChars c d < 0 ∨ 59 < twoChars c d)} :
    (if twoChars a b < 0 ∨ 59 < twoChars a b ∨ twoChars c d < 0 ∨ 59 < twoChars c d then
        (pure none : Reading UInt8 (Option Int))
      else pure (some (if sign = letter '-' then -(twoChars a b * 3600 + twoChars c d * 60)
        else twoChars a b * 3600 + twoChars c d * 60))).value memory = some offset ↔
      (Ranged a b ∧ Ranged c d) ∧ signed sign (twoChars a b * 3600 + twoChars c d * 60) = offset := by
  unfold Ranged signed
  split
  next outside =>
    constructor
    · intro impossible
      cases impossible
    · intro inside
      omega
  next inside =>
    simp only [value_pure, Option.some.injEq, iff_and_self]
    omega

section

variable (isSign : memory 0 = letter '+' ∨ memory 0 = letter '-')

include isSign

theorem sign_cases : memory 0 ≠ letter 'Z' ∧ ¬ (memory 0 ≠ letter '+' ∧ memory 0 ≠ letter '-') := by
  obtain same | same := isSign
  · rw [same]
    decide
  · rw [same]
    decide

theorem value_signed (enough : 4 ≤ n) (offset : Int) : (tzoneOffset n).value memory = some offset ↔
      (Ranged (memory 1) (memory 2) ∧ Ranged (memory (minutesAt memory n)) (memory (minutesAt memory n + 1))) ∧
        signed (memory 0) (twoChars (memory 1) (memory 2) * 3600 +
          twoChars (memory (minutesAt memory n)) (memory (minutesAt memory n + 1)) * 60) = offset := by
  obtain ⟨notZulu, known⟩ := sign_cases isSign
  have six : n - 1 = 5 ↔ n = 6 := by omega
  simp only [tzoneOffset, value_bind, value_cell, notZulu, known, Nat.not_lt.mpr enough, if_false, six, minutesAt]
  by_cases length : n = 6
  · simp only [length, if_true, value_bind, value_cell, true_and]
    exact outcome_iff
  · simp only [length, if_false, value_bind, value_cell, false_and]
    exact outcome_iff

theorem within_signed (enough : 4 ≤ n) : (tzoneOffset n).Within memory n ↔ 4 < n := by
  obtain ⟨notZulu, known⟩ := sign_cases isSign
  have six : n - 1 = 5 ↔ n = 6 := by omega
  have ends {hour min result : Int} {ranged : Decidable (hour < 0 ∨ 59 < hour ∨ min < 0 ∨ 59 < min)} :
      (if hour < 0 ∨ 59 < hour ∨ min < 0 ∨ 59 < min then (pure none : Reading UInt8 (Option Int))
        else pure (some result)).Within memory n := by
    split <;> exact within_pure _
  simp only [tzoneOffset, within_bind, within_cell, value_cell, notZulu, known, Nat.not_lt.mpr enough, if_false, six]
  by_cases length : n = 6
  · subst length
    simp only [if_true, within_bind, within_cell, value_cell, true_and]
    refine iff_of_true ?_ (by omega)
    by_cases mark : memory 3 = colon
    · simp only [mark, if_true]
      exact ⟨by omega, by omega, by omega, by omega, by omega, by omega, ends⟩
    · simp only [mark, if_false]
      exact ⟨by omega, by omega, by omega, by omega, by omega, by omega, ends⟩
  · simp only [length, if_false, within_bind, within_cell, within_pure, false_and, true_and]
    constructor
    · intro inside
      exact inside.2.2.2.2.1
    · intro five
      exact ⟨by omega, by omega, by omega, by omega, five, ends⟩

theorem denotes_signed {offset : Int} : Denotes (textAt memory n) offset ↔
      (Ranged (memory 1) (memory 2) ∧ Ranged (memory (minutesAt memory n)) (memory (minutesAt memory n + 1))) ∧
        (Digits (memory 1) (memory 2) ∧ (n = 5 ∧ Digits (memory 3) (memory 4) ∨
          n = 6 ∧ memory 3 = colon ∧ Digits (memory 4) (memory 5))) ∧
        signed (memory 0) (twoChars (memory 1) (memory 2) * 3600 +
          twoChars (memory (minutesAt memory n)) (memory (minutesAt memory n + 1)) * 60) = offset := by
  constructor
  · intro denotes
    generalize shape : textAt memory n = text at denotes
    have length := congrArg List.length shape
    rw [textAt, length_map, length_range] at length
    cases denotes with
    | zulu =>
      subst length
      exact absurd (List.cons.inj shape).1 (sign_cases isSign).1
    | plain _ hour min =>
      subst length
      simp only [textAt, List.range, List.range.loop, map_cons, map_nil, length_cons, length_nil,
        List.cons.injEq, and_true] at shape
      obtain ⟨rfl, rfl, rfl, rfl, rfl⟩ := shape
      exact ⟨⟨hour.2, min.2⟩, ⟨hour.1, .inl ⟨rfl, min.1⟩⟩, rfl⟩
    | colon _ hour min =>
      subst length
      simp only [textAt, List.range, List.range.loop, map_cons, map_nil, length_cons, length_nil,
        List.cons.injEq, and_true] at shape
      obtain ⟨rfl, rfl, rfl, mark, rfl, rfl⟩ := shape
      have start : minutesAt memory 6 = 4 := if_pos ⟨rfl, mark⟩
      simp only [length_cons, length_nil, Nat.reduceAdd, start]
      exact ⟨⟨hour.2, min.2⟩, ⟨hour.1, .inr ⟨trivial, mark, min.1⟩⟩, trivial⟩
  · rintro ⟨⟨hourRanged, minRanged⟩, ⟨hour, ⟨rfl, min⟩ | ⟨rfl, mark, min⟩⟩, rfl⟩
    · exact .plain isSign ⟨hour, hourRanged⟩ ⟨min, minRanged⟩
    · have start : minutesAt memory 6 = 4 := if_pos ⟨rfl, mark⟩
      rw [start] at minRanged ⊢
      have text : textAt memory 6 = [memory 0, memory 1, memory 2, colon, memory 4, memory 5] := by
        rw [← mark]
        rfl
      rw [text]
      exact .colon isSign ⟨hour, hourRanged⟩ ⟨min, minRanged⟩

end

theorem exact_of (within : (tzoneOffset n).Within memory n)
    (denotes : ∀ offset, (tzoneOffset n).value memory = some offset ↔ Denotes (textAt memory n) offset) : Exact memory n where
  within := within
  denotes := denotes
  agrees := by
    intro offset shape others tm
    refine strptime_zone others tm ?_ (zone_denotes shape)
    intro empty
    rw [empty] at shape
    cases shape

theorem head_of_denotes {first : UInt8} {rest : Bytes} (parts : text = first :: rest) (denotes : Denotes text offset) :
    (first = letter 'Z' ∧ rest = [] ∧ offset = 0) ∨ first = letter '+' ∨ first = letter '-' := by
  cases denotes with
  | zulu =>
    cases parts
    exact .inl ⟨rfl, rfl, rfl⟩
  | plain isSign | colon isSign =>
    cases parts
    exact .inr isSign

/-- The offset of a text comes out, and only of such a text, if and only if it is read as it is
written. -/
theorem exact_iff : Exact memory n ↔ ReadRight memory n := by
  have length : (textAt memory n).length = n := by rw [textAt, length_map, length_range]
  cases n with
  | zero =>
    constructor
    · intro exact
      have inside := (within_bind.mp exact.within).1
      rw [within_cell] at inside
      exact absurd inside (Nat.lt_irrefl 0)
    · intro right
      exact absurd rfl right.1
  | succ n =>
    have head : ∃ rest, textAt memory (n + 1) = memory 0 :: rest := ⟨_, by rw [textAt, range_succ_eq_map, map_cons]⟩
    obtain ⟨rest, parts⟩ := head
    rw [ReadRight, and_iff_right (Nat.succ_ne_zero n)]
    split
    next zulu =>
      have value : (tzoneOffset (n + 1)).value memory = some 0 := by
        simp [tzoneOffset, zulu]
      constructor
      · intro exact
        have denotes := (exact.denotes 0).mp value
        rcases head_of_denotes parts denotes with ⟨_, alone, _⟩ | other | other
        · rw [parts, alone] at length
          exact length.symm
        · exact absurd (zulu.symm.trans other) (by decide)
        · exact absurd (zulu.symm.trans other) (by decide)
      · intro alone
        cases alone
        have text : textAt memory 1 = [letter 'Z'] := congrArg (fun byte => [byte]) zulu
        apply exact_of
        · simp only [tzoneOffset, within_bind, within_cell, value_cell, zulu, if_true, within_pure, and_true]
          exact Nat.zero_lt_one
        · intro offset
          rw [value, text]
          constructor
          · rintro ⟨⟩
            exact .zulu
          · intro denotes
            cases denotes
            rfl
    next notZulu =>
      split
      next other =>
        refine iff_of_true (exact_of ?_ ?_) trivial
        · simp [tzoneOffset, notZulu, other]
        · intro offset
          have value : (tzoneOffset (n + 1)).value memory = none := by simp [tzoneOffset, notZulu, other]
          rw [value]
          constructor
          · intro impossible
            cases impossible
          · intro denotes
            rcases head_of_denotes parts denotes with ⟨zulu, _⟩ | plus | minus
            · exact absurd zulu notZulu
            · exact absurd plus other.1
            · exact absurd minus other.2
      next sign =>
        have isSign : memory 0 = letter '+' ∨ memory 0 = letter '-' := by tauto
        cases Nat.lt_or_ge (n + 1) 4 with
        | inl short =>
          refine iff_of_true (exact_of ?_ ?_) (.inl short)
          · simp [tzoneOffset, notZulu, short]
          · intro offset
            have value : (tzoneOffset (n + 1)).value memory = none := by simp [tzoneOffset, notZulu, short]
            rw [value]
            constructor
            · intro impossible
              cases impossible
            · intro denotes
              rcases denotes_cases denotes with zulu | five | six
              · rw [parts] at zulu
                exact absurd (List.cons.inj zulu).1 notZulu
              · omega
              · omega
        | inr enough =>
          have value := value_signed isSign enough
          have denotes := @denotes_signed memory (n + 1) isSign
          have ranged : NumbersRanged memory (n + 1) ↔ Ranged (memory 1) (memory 2) ∧
              Ranged (memory (minutesAt memory (n + 1))) (memory (minutesAt memory (n + 1) + 1)) := by
            unfold NumbersRanged minutesAt
            split <;> rfl
          rw [or_iff_right (Nat.not_lt.mpr enough), ranged]
          constructor
          · intro exact
            refine ⟨(within_signed isSign enough).mp exact.within, ?_⟩
            intro numbers
            exact (denotes.mp ((exact.denotes _).mp ((value _).mpr ⟨numbers, rfl⟩))).2.1
          · rintro ⟨five, digits⟩
            refine exact_of ((within_signed isSign enough).mpr five) ?_
            intro offset
            rw [value, denotes]
            exact ⟨fun found => ⟨found.1, digits found.1, found.2⟩, fun found => ⟨found.1, found.2.2⟩⟩

/-- A byte behind the text is looked at, a rest is not, and neither is what a digit is. -/
theorem offset_misread : ¬ (tzoneOffset 4).Within (fun i => (ofString "+123").getD i 0x34) 4 ∧
      (tzoneOffset 8).value (fun i => (ofString "+0100xyz").getD i 0) = some 3600 ∧
      (tzoneOffset 5).value (fun i => (ofString "+/<00").getD i 0) = some 7200 := by
  refine ⟨?_, by decide, by decide⟩
  intro within
  exact absurd (within 4 (by decide)) (by decide)

end FluentBit.Strptime
