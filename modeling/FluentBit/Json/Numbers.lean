import FluentBit.Json.Pack
import FluentBit.Json.TokeniserProperties
import FluentBit.Json.Write

/-! Primitives in text: where they end, and what they are packed as. -/

set_option autoImplicit false

namespace FluentBit.Json

open List Nat Bool Ascii

def staysPrimitive (byte : UInt8) : Bool := byte != 0 && !endsPrimitive byte && 32 ≤ byte && byte < 127

def EndsHere (rest : Bytes) : Prop := ∃ byte ∈ rest.head?, endsPrimitive byte = true

variable {text rest : Bytes}

theorem ends_nonzero : ∀ byte : UInt8, endsPrimitive byte = true → byte ≠ 0 := by
  apply forall_byte
  decide +kernel

theorem staysPrimitive_facts {byte : UInt8} (stays : staysPrimitive byte = true) :
    byte ≠ 0 ∧ endsPrimitive byte = false ∧ ¬ (byte < 32 ∨ 127 ≤ byte) := by
  simp only [staysPrimitive, and_eq_true, bne_iff_ne, not_eq_true', decide_eq_true_eq] at stays
  obtain ⟨⟨⟨nonzero, goes⟩, low⟩, high⟩ := stays
  refine ⟨nonzero, goes, ?_⟩
  rintro (below | above)
  · exact UInt8.not_lt.mpr low below
  · exact UInt8.not_le.mpr high above

/-- A primitive ends in front of the byte that cannot go on with it. -/
theorem scanPrimitive_ends (stays : ∀ byte ∈ text, staysPrimitive byte = true) (ends : EndsHere rest) :
    scanPrimitive (text ++ rest) = .ok text.length := by
  induction text with
  | nil =>
    obtain ⟨byte, head, ends⟩ := ends
    obtain ⟨more, rfl⟩ : ∃ more, rest = byte :: more := ⟨_, eq_cons_of_mem_head? head⟩
    simp only [nil_append, scanPrimitive, ends_nonzero byte ends, ends, if_true, if_false]
    rfl
  | cons byte text ih =>
    obtain ⟨nonzero, goes, ordinary⟩ := staysPrimitive_facts (stays byte (mem_cons_self ..))
    rw [cons_append, scanPrimitive, if_neg nonzero, if_neg (by simp [goes]), if_neg ordinary,
      ih fun other member => stays other (mem_cons_of_mem _ member)]
    rfl

/-! ### Digits -/

theorem digit_byte : ∀ digit : Fin 10,
    isDigit (UInt8.ofNat (0x30 + digit)) = true ∧ digitValue (UInt8.ofNat (0x30 + digit)) = digit := by
  decide +kernel

theorem decimal_isDigit {number : Nat} {byte : UInt8} (member : byte ∈ decimal number) : isDigit byte = true := by
  unfold decimal at member
  split at member
  · rw [mem_singleton] at member
    rw [member]
    rfl
  · rw [mem_reverse, mem_map] at member
    obtain ⟨digit, inside, rfl⟩ := member
    exact (digit_byte ⟨digit, digits_lt_base (by omega) inside⟩).1

variable (number : Nat)

theorem decimal_ne_nil : decimal number ≠ [] := by
  unfold decimal
  split
  · simp
  next nonzero => simpa [digits_eq_nil_iff_eq_zero] using nonzero

theorem number_digits {digits : List Nat} (small : ∀ digit ∈ digits, digit < 10) :
    Ascii.number 10 (digits.map fun digit => UInt8.ofNat (0x30 + digit)).reverse = Nat.ofDigits 10 digits := by
  rw [Ascii.number, foldl_reverse]
  induction digits with
  | nil => rfl
  | cons digit digits ih =>
    have value := (digit_byte ⟨digit, small digit (mem_cons_self ..)⟩).2
    simp only at value
    rw [map_cons, foldr_cons, ih fun other member => small other (mem_cons_of_mem _ member), value,
      ofDigits_cons, Nat.add_comm, Nat.mul_comm]

theorem number_decimal : Ascii.number 10 (decimal number) = number := by
  unfold decimal
  split
  next zero =>
    rw [zero]
    rfl
  · rw [number_digits fun digit member => digits_lt_base (by omega) member, ofDigits_digits]

theorem digit_facts : ∀ byte : UInt8, isDigit byte = true →
    staysPrimitive byte = true ∧ startsPrimitive byte = true ∧ isSpace byte = false ∧ byte ≠ minus ∧
      byte ≠ letter '+' ∧ byte ≠ letter 'e' ∧ byte ≠ dot ∧ byte ≠ letter 'f' ∧
      byte ≠ letter 't' ∧ byte ≠ letter 'n' := by
  apply forall_byte
  decide +kernel

theorem ends_facts : ∀ byte : UInt8, endsPrimitive byte = true →
    isDigit byte = false ∧ byte ≠ letter 'e' ∧ byte ≠ dot := by
  apply forall_byte
  decide +kernel

theorem takeWhile_digits (digits : ∀ byte ∈ text, isDigit byte = true) (ends : EndsHere rest) :
    (text ++ rest).takeWhile isDigit = text := by
  obtain ⟨byte, head, ends⟩ := ends
  obtain ⟨more, rfl⟩ : ∃ more, rest = byte :: more := ⟨_, eq_cons_of_mem_head? head⟩
  rw [takeWhile_append_of_pos digits, takeWhile_cons, (ends_facts byte ends).1]
  simp

theorem isFloat_false (plain : ∀ byte ∈ text, byte ≠ letter 'e' ∧ byte ≠ dot) : isFloat text = false := by
  induction text with
  | nil => rfl
  | cons byte text ih =>
    obtain ⟨notExponent, notDot⟩ := plain byte (mem_cons_self ..)
    rw [isFloat, ih fun other member => plain other (mem_cons_of_mem _ member)]
    simp [notExponent, notDot]

theorem isFloat_number (digits : ∀ byte ∈ text, byte = minus ∨ isDigit byte = true) (ends : EndsHere rest) :
    isFloat ((text ++ rest).take (text.length + 1)) = false := by
  obtain ⟨byte, head, ends⟩ := ends
  obtain ⟨more, rfl⟩ : ∃ more, rest = byte :: more := ⟨_, eq_cons_of_mem_head? head⟩
  apply isFloat_false
  intro other member
  rw [take_append, take_of_length_le (by omega), Nat.add_sub_cancel_left, take_succ_cons, take_zero,
    mem_append, mem_singleton] at member
  rcases member with inside | rfl
  · rcases digits other inside with rfl | isDigit
    · decide
    · have facts := digit_facts other isDigit
      exact ⟨facts.2.2.2.2.2.1, facts.2.2.2.2.2.2.1⟩
  · exact (ends_facts other ends).2

theorem atollDigits_decimal (negative : Bool) (ends : EndsHere rest) : atollDigits negative (decimal number ++ rest) =
      if negative then max (-(number : Int)) (-2 ^ 63) else min (number : Int) (2 ^ 63 - 1) := by
  rw [atollDigits, takeWhile_digits (fun byte => decimal_isDigit) ends, number_decimal]

theorem decimal_cons : ∃ byte more, decimal number = byte :: more ∧ isDigit byte = true := by
  cases shape : decimal number with
  | nil => exact absurd shape (decimal_ne_nil number)
  | cons byte more => exact ⟨byte, more, rfl, decimal_isDigit (by rw [shape]; exact mem_cons_self ..)⟩

theorem atoll_decimal {number : Nat} (small : number < 2 ^ 63) (ends : EndsHere rest) :
    atoll (decimal number ++ rest) = number := by
  have read := atollDigits_decimal number false ends
  obtain ⟨byte, more, shape, isDigit⟩ := decimal_cons number
  obtain ⟨_, _, noSpace, notMinus, notPlus, _⟩ := digit_facts byte isDigit
  rw [shape, cons_append] at read ⊢
  simp only [atoll, dropWhile_cons, noSpace, false_eq_true, if_false, notMinus, notPlus, read]
  omega

theorem atoll_signed {number : Int} (below : number < 0) (above : -2 ^ 63 ≤ number) (ends : EndsHere rest) :
    atoll (signedDecimal number ++ rest) = number := by
  have read := atollDigits_decimal number.natAbs true ends
  have noSpace : isSpace minus = false := by decide
  rw [signedDecimal, if_pos below, cons_append]
  simp only [atoll, dropWhile_cons, noSpace, false_eq_true, if_false, if_true, read]
  omega

theorem packInt_ofNat : Msgpack.packInt number = Msgpack.packUnsigned number := by
  rw [Msgpack.packInt, if_neg (by omega), if_neg (by omega), if_neg (by omega), if_neg (by omega)]
  split
  next small =>
    rw [Msgpack.packUnsigned, if_pos (by omega), Int.emod_eq_of_lt (by omega) (by omega)]
    rfl
  · rfl

theorem decimal_text :
    (∃ byte ∈ (decimal number).head?, startsPrimitive byte = true) ∧ ∀ byte ∈ decimal number, staysPrimitive byte = true := by
  obtain ⟨byte, more, shape, isDigit⟩ := decimal_cons number
  constructor
  · rw [shape]
    exact ⟨byte, rfl, (digit_facts byte isDigit).2.1⟩
  · exact fun other member => (digit_facts other (decimal_isDigit member)).1

theorem minus_facts : staysPrimitive minus = true ∧ startsPrimitive minus = true := by decide

theorem signedDecimal_text {number : Int} (below : number < 0) :
    (∃ byte ∈ (signedDecimal number).head?, startsPrimitive byte = true) ∧
      ∀ byte ∈ signedDecimal number, staysPrimitive byte = true := by
  rw [signedDecimal, if_pos below]
  refine ⟨⟨minus, rfl, minus_facts.2⟩, ?_⟩
  intro other member
  rcases mem_cons.mp member with rfl | member
  · exact minus_facts.1
  · exact (decimal_text _).2 other member

end FluentBit.Json
