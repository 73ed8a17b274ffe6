import FluentBit.Foundation.Ascii
import FluentBit.Foundation.Reading

/-! Escapes of one letter, after `src/flb_unescape.c`. The buffer is a memory of which only the
first bytes belong to the text. -/

set_option autoImplicit false

namespace FluentBit.Strings

open List Ascii Reading

/-- The bytes that `flb_unescape_string` knows behind a backslash. -/
def shortEscape (symbol : UInt8) : Option UInt8 :=
  if symbol = letter 'n' then some 0x0a
  else if symbol = letter 'a' then some 0x07
  else if symbol = letter 'b' then some 0x08
  else if symbol = letter 't' then some 0x09
  else if symbol = letter 'v' then some 0x0b
  else if symbol = letter 'f' then some 0x0c
  else if symbol = letter 'r' then some 0x0d
  else if symbol = backslash then some backslash
  else none

/-- The loop of `flb_unescape_string`, from a place on. Behind a backslash that is the last byte the
index is raised before the byte is copied. -/
def unescapeFrom (length i : Nat) (out : Bytes) : Reading UInt8 Bytes :=
  if _inside : i < length then do
    let byte ← Reading.cell i
    if byte = backslash then
      if i + 1 < length then
        let n ← Reading.cell (i + 1)
        match shortEscape n with
        | some symbol => unescapeFrom length (i + 2) (out ++ [symbol])
        | none => unescapeFrom length (i + 1) out
      else
        let copied ← Reading.cell (i + 1)
        unescapeFrom length (i + 2) (out ++ [copied])
    else
      let copied ← Reading.cell i
      unescapeFrom length (i + 1) (out ++ [copied])
  else pure out
termination_by length - i

/-- `flb_unescape_string`: the bytes it writes, the last one ends the string. -/
def unescapeString (length : Nat) : Reading UInt8 Bytes := do
  let out ← unescapeFrom length 0 []
  return out ++ [0]

/-- What `flb_mysql_unquote_string` writes for a backslash and a byte behind it. -/
def mysqlEscape (symbol : UInt8) : Bytes :=
  if symbol = letter 'n' then [0x0a]
  else if symbol = letter 'r' then [0x0d]
  else if symbol = letter 't' then [0x09]
  else if symbol = backslash then [backslash]
  else if symbol = letter '\'' then [letter '\'']
  else if symbol = quote then [quote]
  else if symbol = zero then [0]
  else if symbol = letter 'Z' then [0x1a]
  else [backslash, symbol]

/-- The loop of `flb_mysql_unquote_string`, from a place on. -/
def unquoteFrom (length i : Nat) (out : Bytes) : Reading UInt8 Bytes :=
  if _inside : i < length then do
    let n ← Reading.cell i
    if n = backslash then
      if length ≤ i + 1 then unquoteFrom length (i + 1) (out ++ [n])
      else
        let symbol ← Reading.cell (i + 1)
        unquoteFrom length (i + 2) (out ++ mysqlEscape symbol)
    else unquoteFrom length (i + 1) (out ++ [n])
  else pure out
termination_by length - i

/-- `flb_mysql_unquote_string`: the bytes it writes, the last one ends the string. -/
def mysqlUnquoteString (length : Nat) : Reading UInt8 Bytes := do
  let out ← unquoteFrom length 0 []
  return out ++ [0]

def backslashesBefore (memory : Nat → UInt8) : Nat → Nat
  | 0 => 0
  | i + 1 => if memory i = backslash then backslashesBefore memory i + 1 else 0

variable {memory : Nat → UInt8}

theorem mysqlEscape_length (symbol : UInt8) : (mysqlEscape symbol).length ≤ 2 := by
  unfold mysqlEscape
  repeat' split
  all_goals simp

theorem unquoteFrom_run (length i : Nat) (out : Bytes) : (unquoteFrom length i out).Within memory length ∧
      ((unquoteFrom length i out).value memory).length ≤ out.length + (length - i) := by
  induction i, out using unquoteFrom.induct length with
  | case1 i out inside last escape plain =>
    rw [unquoteFrom, dif_pos inside, within_read, value_read]
    by_cases backslash : memory i = backslash
    · rw [if_pos backslash]
      by_cases ends : length ≤ i + 1
      · obtain ⟨within, bound⟩ := last (memory i) ends
        rw [if_pos ends]
        simp only [length_append, length_singleton] at bound
        exact ⟨⟨inside, within⟩, by omega⟩
      · obtain ⟨within, bound⟩ := escape ends (memory (i + 1))
        have short := mysqlEscape_length (memory (i + 1))
        rw [if_neg ends, within_read, value_read]
        rw [length_append] at bound
        exact ⟨⟨inside, by omega, within⟩, by omega⟩
    · obtain ⟨within, bound⟩ := plain (memory i)
      rw [if_neg backslash]
      simp only [length_append, length_singleton] at bound
      exact ⟨⟨inside, within⟩, by omega⟩
  | case2 i out outside =>
    rw [unquoteFrom, dif_neg outside]
    exact ⟨within_pure out, Nat.le_add_right _ _⟩

variable (length : Nat)

theorem mysqlUnquoteString_within : (mysqlUnquoteString length).Within memory length := by
  rw [mysqlUnquoteString, within_bind]
  exact ⟨(unquoteFrom_run length 0 []).1, within_pure _⟩

theorem mysqlUnquoteString_length : ((mysqlUnquoteString length).value memory).length ≤ length + 1 := by
  have bound := (@unquoteFrom_run memory length 0 []).2
  simp only [mysqlUnquoteString, value_bind, value_pure, length_append, length_singleton]
  simp only [length_nil] at bound
  omega

/-! ### `flb_unescape_string` -/

theorem shortEscape_eq_none {symbol : UInt8} (unknown : shortEscape symbol = none) : symbol ≠ backslash := by
  intro same
  subst same
  cases unknown

def Settled (memory : Nat → UInt8) (length i : Nat) : Prop :=
  backslashesBefore memory i % 2 = 0 ∨ i < length ∧ memory i ≠ backslash

variable {i : Nat}

theorem backslashesBefore_plain (plain : memory i ≠ backslash) : backslashesBefore memory (i + 1) = 0 := if_neg plain

theorem backslashesBefore_backslash (backslash : memory i = backslash) :
    backslashesBefore memory (i + 1) = backslashesBefore memory i + 1 := if_pos backslash

theorem settled_plain (plain : memory i ≠ backslash) : Settled memory length (i + 1) := by
  left
  rw [backslashesBefore_plain plain]

theorem settled_escape {length : Nat} (even : backslashesBefore memory i % 2 = 0) (backslash : memory i = backslash) :
    Settled memory length (i + 2) := by
  by_cases again : memory (i + 1) = Ascii.backslash
  · left
    rw [backslashesBefore_backslash again, backslashesBefore_backslash backslash]
    omega
  · exact settled_plain length again

theorem Settled.even {length : Nat} (settled : Settled memory length i) (stays : ¬ i < length ∨ memory i = backslash) :
    backslashesBefore memory i % 2 = 0 := by
  cases settled with
  | inl even => exact even
  | inr plain =>
    cases stays with
    | inl outside => exact absurd plain.1 outside
    | inr backslash => exact absurd backslash plain.2

theorem unescapeFrom_within_iff (length i : Nat) (out : Bytes) (start : i ≤ length)
    (settled : Settled memory length i) :
    (unescapeFrom length i out).Within memory length ↔ backslashesBefore memory length % 2 = 0 := by
  induction i, out using unescapeFrom.induct length with
  | case1 i out inside known unknown last plain =>
    rw [unescapeFrom, dif_pos inside, within_read]
    by_cases backslash : memory i = backslash
    · have even := settled.even (.inr backslash)
      rw [if_pos backslash]
      by_cases more : i + 1 < length
      · rw [if_pos more, within_read]
        cases escape : shortEscape (memory (i + 1)) with
        | none =>
          have goes := unknown more (by omega) (.inr ⟨more, shortEscape_eq_none escape⟩)
          simp only [inside, more, true_and]
          exact goes
        | some symbol =>
          have goes := known more symbol (by omega) (settled_escape even backslash)
          simp only [inside, more, true_and]
          exact goes
      · obtain rfl : length = i + 1 := by omega
        rw [if_neg more, within_read, backslashesBefore_backslash backslash]
        constructor
        · intro reads
          exact absurd reads.2.1 (Nat.lt_irrefl _)
        · intro odd
          omega
    · have goes := plain (memory i) (by omega) (settled_plain length backslash)
      rw [if_neg backslash, within_read]
      simp only [inside, true_and]
      exact goes
  | case2 i out outside =>
    obtain rfl : i = length := by omega
    rw [unescapeFrom, dif_neg outside]
    exact iff_of_true (within_pure out) (settled.even (.inl outside))

theorem unescapeFrom_length (length i : Nat) (out : Bytes) :
    ((unescapeFrom length i out).value memory).length ≤ out.length + (length - i) := by
  induction i, out using unescapeFrom.induct length with
  | case1 i out inside known unknown last plain =>
    rw [unescapeFrom, dif_pos inside, value_read]
    by_cases backslash : memory i = backslash
    · rw [if_pos backslash]
      by_cases more : i + 1 < length
      · rw [if_pos more, value_read]
        cases shortEscape (memory (i + 1)) with
        | none =>
          have bound := unknown more
          simp only
          omega
        | some symbol =>
          have bound := known more symbol
          simp only [length_append, length_singleton] at bound ⊢
          omega
      · have bound := last more (memory (i + 1))
        rw [if_neg more, value_read]
        simp only [length_append, length_singleton] at bound
        omega
    · have bound := plain (memory i)
      rw [if_neg backslash, value_read]
      simp only [length_append, length_singleton] at bound
      omega
  | case2 i out outside =>
    rw [unescapeFrom, dif_neg outside]
    exact Nat.le_add_right _ _

theorem unescapeString_length : ((unescapeString length).value memory).length ≤ length + 1 := by
  have bound := @unescapeFrom_length memory length 0 []
  simp only [unescapeString, value_bind, value_pure, length_append, length_singleton]
  simp only [length_nil] at bound
  omega

theorem unescapeString_within_iff :
    (unescapeString length).Within memory length ↔ backslashesBefore memory length % 2 = 0 := by
  rw [unescapeString, within_bind, unescapeFrom_within_iff length 0 [] (Nat.zero_le _) (.inl rfl)]
  exact and_iff_left (within_pure _)

/-- Both functions stay in the buffer, and in their output, unless it ends in a backslash that is not
escaped itself: there `flb_unescape_string` copies the byte behind the buffer. -/
theorem lookahead_within_iff (memory : Nat → UInt8) (length : Nat) :
    ((unescapeString length).Within memory length ∧ ((unescapeString length).value memory).length ≤ length + 1 ∧
      (mysqlUnquoteString length).Within memory length ∧
        ((mysqlUnquoteString length).value memory).length ≤ length + 1) ↔ backslashesBefore memory length % 2 = 0 := by
  constructor
  · intro safe
    exact unescapeString_within_iff length |>.mp safe.1
  · intro even
    exact ⟨unescapeString_within_iff length |>.mpr even, unescapeString_length length, mysqlUnquoteString_within length,
      mysqlUnquoteString_length length⟩

/-- A buffer of one backslash: the byte behind it is read and comes out. -/
theorem lone_backslash_reads_behind : let memory := fun index => if index = 0 then backslash else letter 'x'
    ¬ (unescapeString 1).Within memory 1 ∧ (unescapeString 1).value memory = [letter 'x', 0] := by
  intro memory
  have run : (unescapeString 1).reads memory = [0, 1] ∧ (unescapeString 1).value memory = [letter 'x', 0] := by
    simp [unescapeString, unescapeFrom, memory]
  constructor
  · intro within
    have behind : 1 < 1 := within 1 (by rw [run.1]; decide)
    exact absurd behind (by decide)
  · exact run.2

end FluentBit.Strings
