import FluentBit.StreamProcessor.Condition

/-! Conditions as they are parsed, and as they are read with the precedence of the operators. -/

set_option autoImplicit false

namespace FluentBit.StreamProcessor.Condition

open List Bool

inductive Part where
  | operand
  | level

inductive Clause (α : Type) : Part → Type where
  | atom (atom : α) : Clause α .operand
  | group (inner : Clause α .level) : Clause α .operand
  | last (operand : Clause α .operand) : Clause α .level
  | not (rest : Clause α .level) : Clause α .level
  | join (operand : Clause α .operand) (connective : Connective) (rest : Clause α .level) : Clause α .level

def Clause.tokens {part : Part} : Clause Atom part → List Token
  | .atom leaf => [.atom leaf]
  | .group inner => .opening :: inner.tokens ++ [.closing]
  | .last operand => operand.tokens
  | .not rest => .not :: rest.tokens
  | .join operand connective rest => operand.tokens ++ .connective connective :: rest.tokens

def Clause.map {α β : Type} (change : α → β) {part : Part} : Clause α part → Clause β part
  | .atom leaf => .atom (change leaf)
  | .group inner => .group (inner.map change)
  | .last operand => .last (operand.map change)
  | .not rest => .not (rest.map change)
  | .join operand connective rest => .join (operand.map change) connective (rest.map change)

def Clause.shape {α : Type} {part : Part} (clause : Clause α part) : Clause Unit part := clause.map fun _ => ()

/-- A level with the precedence of the operators: its first literal, the literals joined to
it by AND, and what is joined to these by OR. -/
structure Reading where
  first : Bool
  ands : Bool := true
  ors : Bool := false

def Reading.value (reading : Reading) : Bool := reading.first && reading.ands || reading.ors

def Clause.standard {α : Type} (truth : α → Bool) {part : Part} : Clause α part → Reading
  | .atom leaf => { first := truth leaf }
  | .group inner => { first := (inner.standard truth).value }
  | .last operand => operand.standard truth
  | .not rest =>
    let rest := rest.standard truth
    { rest with first := !rest.first }
  | .join operand .and rest =>
    let rest := rest.standard truth
    { first := (operand.standard truth).first, ands := rest.first && rest.ands, ors := rest.ors }
  | .join operand .or rest =>
    let rest := rest.standard truth
    { first := (operand.standard truth).first, ors := rest.value }

def Clause.nested {α : Type} (truth : α → Bool) {part : Part} : Clause α part → Bool
  | .atom leaf => truth leaf
  | .group inner => inner.nested truth
  | .last operand => operand.nested truth
  | .not rest => !rest.nested truth
  | .join operand .and rest => operand.nested truth && rest.nested truth
  | .join operand .or rest => operand.nested truth || rest.nested truth

def Clause.hasOr {α : Type} {part : Part} : Clause α part → Bool
  | .atom _ | .group _ | .last _ => false
  | .not rest => rest.hasOr
  | .join _ connective rest => connective = .or || rest.hasOr

/-- On each level an operand that another one follows has an even number of NOTs, and no OR
follows an AND. `odd` tells of the NOTs right before. -/
def Clause.Aligned {α : Type} {part : Part} (odd : Bool) : Clause α part → Prop
  | .atom _ => True
  | .group inner => inner.Aligned false
  | .last operand => operand.Aligned false
  | .not rest => rest.Aligned !odd
  | .join operand connective rest =>
    odd = false ∧ operand.Aligned false ∧ rest.Aligned false ∧ (connective = .and → rest.hasOr = false)

def Clause.exp {part : Part} : Clause Atom part → Exp
  | .atom leaf => leaf.exp
  | .group inner => .op .par inner.exp .absent
  | .last operand => operand.exp
  | .not rest => .op .not rest.exp .absent
  | .join operand connective rest => .op connective.operation operand.exp rest.exp

theorem reduce_append {frames : List Pending} {condition whole : Exp} (done : reduce frames condition = ([], whole))
    (stack : List Pending) : reduce (frames ++ stack) condition = reduce stack whole := by
  induction frames generalizing condition with
  | nil =>
    cases done
    rfl
  | cons frame frames ih =>
    cases frame with
    | not | left => exact ih done
    | opening => cases done

variable {part : Part}

theorem parse_tokens (clause : Clause Atom part) (stack : List Pending) (rest : List Token) :
    ∃ frames condition, parse (clause.tokens ++ rest) stack none = parse rest (frames ++ stack) (some condition) ∧
      reduce frames condition = ([], clause.exp) ∧ (part = .operand → frames = []) := by
  induction clause generalizing stack rest with
  | atom atom => exact ⟨[], atom.exp, rfl, rfl, fun _ => rfl⟩
  | group inner ih =>
    obtain ⟨frames, condition, parsed, reduced, -⟩ := ih (.opening :: stack) (.closing :: rest)
    refine ⟨[], .op .par inner.exp .absent, ?_, rfl, fun _ => rfl⟩
    simp only [Clause.tokens, cons_append, append_assoc, nil_append, parse]
    rw [parsed]
    simp only [parse, reduce_append reduced]
    rfl
  | last operand ih =>
    obtain ⟨frames, condition, parsed, reduced, -⟩ := ih stack rest
    exact ⟨frames, condition, parsed, reduced, nofun⟩
  | not clause ih =>
    obtain ⟨frames, condition, parsed, reduced, -⟩ := ih (.not :: stack) rest
    refine ⟨frames ++ [.not], condition, ?_, ?_, nofun⟩
    · simp only [Clause.tokens, cons_append, parse, append_assoc, nil_append]
      exact parsed
    · rw [reduce_append reduced]
      rfl
  | join operand connective clause operandIh ih =>
    obtain ⟨frames, left, operandParsed, operandReduced, empty⟩ :=
      operandIh stack (.connective connective :: clause.tokens ++ rest)
    obtain rfl := empty rfl
    cases operandReduced
    obtain ⟨frames, condition, parsed, reduced, -⟩ := ih (.left operand.exp connective :: stack) rest
    refine ⟨frames ++ [.left operand.exp connective], condition, ?_, ?_, nofun⟩
    · simp only [Clause.tokens, append_assoc, cons_append, nil_append] at operandParsed ⊢
      rw [operandParsed]
      exact parsed
    · rw [reduce_append reduced]
      rfl

theorem parse_clause (clause : Clause Atom .level) : parse clause.tokens [] none = some clause.exp := by
  obtain ⟨frames, condition, parsed, reduced, -⟩ := parse_tokens clause [] []
  rw [append_nil, append_nil] at parsed
  rw [parsed]
  simp [parse, reduced]

theorem atom_isOp (atom : Atom) : ∃ operation left right, atom.exp = .op operation left right := by
  cases atom with
  | func operand =>
    cases operand with
    | key | contains | time => exact ⟨_, _, _, rfl⟩
  | value | isNull | isNotNull => exact ⟨_, _, _, rfl⟩
  | compare operand relation val =>
    cases relation with
    | eq | neq | lt | lte | gt | gte => exact ⟨_, _, _, rfl⟩

theorem reduceExpression_exp (record : Record) (clause : Clause Atom part) :
    reduceExpression record clause.exp = some (.boolean (clause.nested fun atom => holds record atom.exp)) := by
  induction clause with
  | atom atom =>
    obtain ⟨operation, left, right, same⟩ := atom_isOp atom
    simp only [Clause.exp, Clause.nested, holds, same]
    rfl
  | last operand ih => exact ih
  | group inner ih | not rest ih =>
    simp only [Clause.exp, reduceExpression, ih, Clause.nested]
    rfl
  | join operand connective rest operandIh ih =>
    cases connective with
    | and | or =>
      simp only [Clause.exp, reduceExpression, operandIh, ih, Clause.nested, Connective.operation]
      rfl

section

variable {α : Type} (truth : α → Bool)

theorem Clause.standard_operand : ∀ clause : Clause α .operand,
    (clause.standard truth).ands = true ∧ (clause.standard truth).ors = false
  | .atom _ | .group _ => ⟨rfl, rfl⟩

theorem Clause.standard_ors (clause : Clause α part) (ands : clause.hasOr = false) :
    (clause.standard truth).ors = false := by
  induction clause with
  | atom | group => rfl
  | last operand => exact (operand.standard_operand truth).2
  | not rest ih => exact ih ands
  | join operand connective rest _ ih =>
    cases connective with
    | and => exact ih (by simpa [Clause.hasOr] using ands)
    | or => simp [Clause.hasOr] at ands

def Reading.negatedIf (reading : Reading) (odd : Bool) : Bool :=
  (odd ^^ reading.first) && reading.ands || reading.ors

theorem Clause.nested_eq_standard (clause : Clause α part) (odd : Bool) (aligned : clause.Aligned odd) :
    (odd ^^ clause.nested truth) = (clause.standard truth).negatedIf odd := by
  induction clause generalizing odd with
  | atom leaf => simp [Clause.nested, Clause.standard, Reading.negatedIf]
  | group inner ih =>
    have same := ih false aligned
    simp only [Clause.nested, Clause.standard, Reading.negatedIf, Reading.value, false_xor, Bool.and_true,
      Bool.or_false] at same ⊢
    rw [same]
  | last operand ih =>
    have same := ih false aligned
    obtain ⟨ands, ors⟩ := operand.standard_operand truth
    simp only [Clause.nested, Clause.standard, Reading.negatedIf, ands, ors, false_xor, Bool.and_true,
      Bool.or_false] at same ⊢
    rw [same]
  | not rest ih =>
    have same := ih _ aligned
    simp only [Clause.nested, Clause.standard, Reading.negatedIf] at same ⊢
    rw [xor_not, ← Bool.not_xor, same, Bool.not_xor, xor_not]
  | join operand connective rest operandIh ih =>
    obtain ⟨rfl, operandAligned, restAligned, ordered⟩ := aligned
    have operandSame := operandIh false operandAligned
    have same := ih false restAligned
    obtain ⟨ands, ors⟩ := operand.standard_operand truth
    simp only [Reading.negatedIf, ands, ors, false_xor, Bool.and_true, Bool.or_false] at operandSame same
    cases connective with
    | and =>
      have noOr := rest.standard_ors truth (ordered rfl)
      simp only [noOr, Bool.or_false] at same
      simp [Clause.nested, Clause.standard, Reading.negatedIf, operandSame, same, noOr]
    | or =>
      simp [Clause.nested, Clause.standard, Reading.negatedIf, Reading.value, operandSame, same]

end

/-! ### Where they differ -/

abbrev Valued (part : Part) : Type := Clause Bool part

def Clause.code {part : Part} (clause : Valued part) : Bool := clause.nested id

def Clause.sql {part : Part} (clause : Valued part) : Reading := clause.standard id

def Clause.Both {part : Part} (clause : Valued part) (odd value : Bool) : Prop :=
  (odd ^^ clause.code) = value ∧ ((odd ^^ clause.sql.first) && clause.sql.ands) = value ∧ clause.sql.ors = false

variable (shape : Clause Unit part)

theorem Clause.exists_both (odd value : Bool) :
    ∃ clause : Valued part, clause.shape = shape ∧ clause.Both odd value := by
  induction shape generalizing odd value with
  | atom leaf =>
    refine ⟨.atom (odd ^^ value), rfl, ?_⟩
    cases odd <;> cases value <;> exact ⟨rfl, rfl, rfl⟩
  | group inner ih =>
    obtain ⟨clause, rfl, code, sql, ors⟩ := ih false (odd ^^ value)
    refine ⟨.group clause, rfl, ?_⟩
    simp only [false_xor] at code sql
    have code' : (Clause.group clause).code = (odd ^^ value) := code
    have sql' : (Clause.group clause).sql = { first := odd ^^ value } := by
      simp only [Clause.sql, Clause.standard, Reading.value] at sql ors ⊢
      rw [sql, ors, Bool.or_false]
    simp [Clause.Both, code', sql']
  | last operand ih =>
    obtain ⟨clause, rfl, both⟩ := ih odd value
    exact ⟨.last clause, rfl, both⟩
  | not rest ih =>
    obtain ⟨clause, rfl, code, sql, ors⟩ := ih (!odd) value
    refine ⟨.not clause, rfl, ?_, ?_, ors⟩
    · simp only [Clause.code, Clause.nested] at code ⊢
      rw [xor_not, ← Bool.not_xor]
      exact code
    · simp only [Clause.sql, Clause.standard] at sql ⊢
      rw [xor_not, ← Bool.not_xor]
      exact sql
  | join operand connective rest operandIh ih =>
    -- the operand decides alone where it can, else it is neutral
    cases connective with
    | and =>
      obtain ⟨clause, rfl, code, sql, ors⟩ := ih false (if odd then true else value)
      obtain ⟨head, rfl, headCode, headSql, -⟩ := operandIh false (if odd then !value else true)
      obtain ⟨ands, -⟩ := head.standard_operand id
      refine ⟨.join head .and clause, rfl, ?_⟩
      simp only [Clause.Both, Clause.code, Clause.nested, Clause.sql, Clause.standard, false_xor, ands,
        Bool.and_true] at code sql ors headCode headSql ⊢
      rw [code, headCode, headSql, sql, ors]
      cases odd <;> cases value <;> decide
    | or =>
      obtain ⟨clause, rfl, code, sql, ors⟩ := ih false false
      obtain ⟨head, rfl, headCode, headSql, -⟩ := operandIh false (odd ^^ value)
      obtain ⟨ands, -⟩ := head.standard_operand id
      refine ⟨.join head .or clause, rfl, ?_⟩
      simp only [Clause.Both, Clause.code, Clause.nested, Clause.sql, Clause.standard, Reading.value,
        false_xor, ands, Bool.and_true] at code sql ors headCode headSql ⊢
      rw [code, headCode, headSql, sql, ors]
      cases odd <;> cases value <;> decide

theorem Clause.exists_ors (hasOr : shape.hasOr = true) :
    ∃ clause : Valued part, clause.shape = shape ∧ clause.sql.ors = true := by
  induction shape with
  | atom | group | last => cases hasOr
  | not rest ih =>
    obtain ⟨clause, rfl, ors⟩ := ih hasOr
    exact ⟨.not clause, rfl, ors⟩
  | join operand connective rest _ ih =>
    obtain ⟨head, rfl, -⟩ := Clause.exists_both operand false true
    cases connective with
    | and =>
      obtain ⟨clause, rfl, ors⟩ := ih (by simpa [Clause.hasOr] using hasOr)
      exact ⟨.join head .and clause, rfl, ors⟩
    | or =>
      obtain ⟨clause, rfl, -, sql, -⟩ := Clause.exists_both rest false true
      refine ⟨.join head .or clause, rfl, ?_⟩
      simp only [Clause.sql, Clause.standard, Reading.value, false_xor] at sql ⊢
      rw [sql, Bool.true_or]

theorem xor_ne {odd left right : Bool} (differ : left ≠ right) : (odd ^^ left) ≠ (odd ^^ right) :=
  fun same => differ (Bool.xor_right_inj.mp same)

theorem Clause.exists_differ (odd : Bool) (misaligned : ¬ shape.Aligned odd) :
    ∃ clause : Valued part, clause.shape = shape ∧ (odd ^^ clause.code) ≠ clause.sql.negatedIf odd := by
  induction shape generalizing odd with
  | atom leaf => exact absurd trivial misaligned
  | group inner ih =>
    obtain ⟨clause, rfl, differ⟩ := ih false misaligned
    refine ⟨.group clause, rfl, ?_⟩
    simp only [Reading.negatedIf, false_xor] at differ
    have outer : (Clause.group clause).sql.negatedIf odd = (odd ^^ clause.sql.value) := by
      simp [Reading.negatedIf, Clause.sql, Clause.standard]
    rw [outer]
    exact xor_ne differ
  | last operand ih =>
    obtain ⟨clause, rfl, differ⟩ := ih false misaligned
    refine ⟨.last clause, rfl, ?_⟩
    obtain ⟨ands, ors⟩ := clause.standard_operand id
    have outer : (Clause.last clause).sql.negatedIf odd = (odd ^^ clause.sql.first) := by
      simp [Reading.negatedIf, Clause.sql, Clause.standard, ands, ors]
    simp only [Reading.negatedIf, Clause.sql, ands, ors, false_xor, Bool.and_true, Bool.or_false] at differ
    rw [outer]
    exact xor_ne differ
  | not rest ih =>
    obtain ⟨clause, rfl, differ⟩ := ih (!odd) misaligned
    refine ⟨.not clause, rfl, ?_⟩
    have flipped : ∀ value : Bool, (odd ^^ !value) = (!odd ^^ value) := by
      intro value
      rw [xor_not, Bool.not_xor]
    simp only [Clause.code, Clause.nested, Clause.sql, Clause.standard, Reading.negatedIf, flipped] at differ ⊢
    exact differ
  | join operand connective rest operandIh ih =>
    cases odd with
    | true =>
      -- the NOT of the parser also takes what follows the operand
      cases connective with
      | and =>
        obtain ⟨head, rfl, headCode, headSql, -⟩ := Clause.exists_both operand false false
        obtain ⟨clause, rfl, -, sql, ors⟩ := Clause.exists_both rest false false
        refine ⟨.join head .and clause, rfl, ?_⟩
        obtain ⟨ands, -⟩ := head.standard_operand id
        simp only [Clause.code, Clause.nested, Clause.sql, Clause.standard, Reading.negatedIf, false_xor,
          ands, Bool.and_true] at headCode headSql sql ors ⊢
        simp [headCode, headSql, sql, ors]
      | or =>
        obtain ⟨head, rfl, headCode, headSql, -⟩ := Clause.exists_both operand false false
        obtain ⟨clause, rfl, code, -, -⟩ := Clause.exists_both rest false true
        refine ⟨.join head .or clause, rfl, ?_⟩
        obtain ⟨ands, -⟩ := head.standard_operand id
        simp only [Clause.code, Clause.nested, Clause.sql, Clause.standard, Reading.negatedIf, false_xor,
          ands, Bool.and_true] at headCode headSql code ⊢
        simp [headCode, headSql, code]
    | false =>
      by_cases operandAligned : operand.Aligned false
      · by_cases restAligned : rest.Aligned false
        · -- an OR follows the AND
          have ordered : connective = .and ∧ rest.hasOr = true := by
            by_contra other
            refine misaligned ⟨rfl, operandAligned, restAligned, ?_⟩
            intro isAnd
            by_contra hasOr
            exact other ⟨isAnd, by simpa using hasOr⟩
          obtain ⟨rfl, hasOr⟩ := ordered
          obtain ⟨head, rfl, headCode, -, -⟩ := Clause.exists_both operand false false
          obtain ⟨clause, rfl, ors⟩ := Clause.exists_ors rest hasOr
          refine ⟨.join head .and clause, rfl, ?_⟩
          simp only [Clause.code, Clause.nested, Clause.sql, Clause.standard, Reading.negatedIf,
            false_xor] at headCode ors ⊢
          simp [headCode, ors]
        · obtain ⟨clause, rfl, differ⟩ := ih false restAligned
          cases connective with
          | and =>
            obtain ⟨head, rfl, headCode, headSql, -⟩ := Clause.exists_both operand false true
            refine ⟨.join head .and clause, rfl, ?_⟩
            obtain ⟨ands, -⟩ := head.standard_operand id
            simp only [Clause.code, Clause.nested, Clause.sql, Clause.standard, Reading.negatedIf, false_xor,
              ands, Bool.and_true] at headCode headSql differ ⊢
            rw [headCode, headSql, Bool.true_and, Bool.true_and]
            exact differ
          | or =>
            obtain ⟨head, rfl, headCode, headSql, -⟩ := Clause.exists_both operand false false
            refine ⟨.join head .or clause, rfl, ?_⟩
            obtain ⟨ands, -⟩ := head.standard_operand id
            simp only [Clause.code, Clause.nested, Clause.sql, Clause.standard, Reading.negatedIf, Reading.value,
              false_xor, ands, Bool.and_true] at headCode headSql differ ⊢
            rw [headCode, headSql, Bool.false_or, Bool.false_or]
            exact differ
      · obtain ⟨head, rfl, differ⟩ := operandIh false operandAligned
        obtain ⟨ands, headOrs⟩ := head.standard_operand id
        cases connective with
        | and =>
          obtain ⟨clause, rfl, code, sql, ors⟩ := Clause.exists_both rest false true
          refine ⟨.join head .and clause, rfl, ?_⟩
          simp only [Clause.code, Clause.nested, Clause.sql, Clause.standard, Reading.negatedIf, false_xor,
            ands, headOrs, Bool.and_true, Bool.or_false] at code sql ors differ ⊢
          rw [code, sql, ors, Bool.and_true, Bool.and_true, Bool.or_false]
          exact differ
        | or =>
          obtain ⟨clause, rfl, code, sql, ors⟩ := Clause.exists_both rest false false
          refine ⟨.join head .or clause, rfl, ?_⟩
          simp only [Clause.code, Clause.nested, Clause.sql, Clause.standard, Reading.negatedIf, Reading.value,
            false_xor, ands, headOrs, Bool.and_true, Bool.or_false] at code sql ors differ ⊢
          rw [code, sql, ors, Bool.or_false, Bool.or_false, Bool.or_false]
          exact differ

/-! ### Every clause of a shape -/

section

variable {α β : Type} (change : α → β)

theorem Clause.shape_map (clause : Clause α part) : (clause.map change).shape = clause.shape := by
  induction clause with
  | atom leaf => rfl
  | group inner ih => exact congrArg Clause.group ih
  | last operand ih => exact congrArg Clause.last ih
  | not rest ih => exact congrArg Clause.not ih
  | join operand connective rest operandIh ih =>
    simp only [Clause.shape] at operandIh ih
    simp [Clause.shape, Clause.map, operandIh, ih]

theorem Clause.nested_map (truth : β → Bool) (clause : Clause α part) :
    (clause.map change).nested truth = clause.nested fun leaf => truth (change leaf) := by
  induction clause with
  | atom leaf => rfl
  | group inner ih => exact ih
  | last operand ih => exact ih
  | not rest ih => simp [Clause.map, Clause.nested, ih]
  | join operand connective rest operandIh ih =>
    cases connective with
    | and | or => simp [Clause.map, Clause.nested, operandIh, ih]

theorem Clause.standard_map (truth : β → Bool) (clause : Clause α part) :
    (clause.map change).standard truth = clause.standard fun leaf => truth (change leaf) := by
  induction clause with
  | atom leaf => rfl
  | last operand ih => exact ih
  | group inner ih | not rest ih => simp [Clause.map, Clause.standard, ih]
  | join operand connective rest operandIh ih =>
    cases connective with
    | and | or => simp [Clause.map, Clause.standard, operandIh, ih]

theorem Clause.aligned_map (clause : Clause α part) (odd : Bool) :
    (clause.map change).Aligned odd ↔ clause.Aligned odd := by
  have sameOr : ∀ {part : Part} (clause : Clause α part), (clause.map change).hasOr = clause.hasOr := by
    intro part clause
    induction clause with
    | atom | group | last => rfl
    | not rest ih => exact ih
    | join operand connective rest _ ih => simp [Clause.map, Clause.hasOr, ih]
  induction clause generalizing odd with
  | atom leaf => rfl
  | group inner ih | last operand ih => exact ih false
  | not rest ih => exact ih _
  | join operand connective rest operandIh ih =>
    simp [Clause.map, Clause.Aligned, operandIh, ih, sameOr]

end

def atomOf (value : Bool) : Atom := .func (.key (if value then [97] else [98]) [])

def sampleRecord : Record := { map := [(.str [97], .boolean true)], time := 0, number := fun _ => none }

theorem holds_atomOf (value : Bool) : holds sampleRecord (atomOf value).exp = value := by
  cases value with
  | true | false => rfl

/-- The truth of a clause in the code is the one of SQL, for whatever atoms it has and on
every record, just where its shape leaves the precedence of the operators nothing to say. -/
theorem parsed_as_read_iff (shape : Clause Unit .level) : (∀ clause : Clause Atom .level, clause.shape = shape →
      ∃ condition, parse clause.tokens [] none = some condition ∧
        ∀ record, holds record condition = (clause.standard fun atom => holds record atom.exp).value) ↔
      shape.Aligned false := by
  have code : ∀ (record : Record) (clause : Clause Atom .level),
      holds record clause.exp = clause.nested fun atom => holds record atom.exp := by
    intro record clause
    simp only [holds, reduceExpression_exp]
    rfl
  constructor
  · intro agree
    by_contra misaligned
    obtain ⟨clause, rfl, differ⟩ := Clause.exists_differ shape false misaligned
    obtain ⟨condition, parsed, same⟩ := agree (clause.map atomOf) (clause.shape_map atomOf)
    rw [parse_clause] at parsed
    cases parsed
    have equal := same sampleRecord
    rw [code, Clause.nested_map, Clause.standard_map] at equal
    simp only [holds_atomOf] at equal
    have sameCode : clause.code = clause.sql.value := equal
    rw [false_xor, sameCode] at differ
    exact differ (by simp [Reading.negatedIf, Reading.value])
  · rintro aligned clause rfl
    refine ⟨clause.exp, parse_clause clause, ?_⟩
    intro record
    have same := clause.nested_eq_standard (fun atom => holds record atom.exp) false
      ((clause.aligned_map _ false).mp aligned)
    rw [false_xor] at same
    rw [code, same]
    simp [Reading.negatedIf, Reading.value]

/-- `NOT b AND b`, on a record that has no `b`: the code negates the whole of it. -/
theorem not_binds_to_the_end :
    (parse [.not, .atom (atomOf false), .connective .and, .atom (atomOf false)] [] none).map (holds sampleRecord) =
        some true ∧ ((Clause.not (.join (.atom (atomOf false)) .and (.last (.atom (atomOf false))))).standard
        fun atom => holds sampleRecord atom.exp).value = false := by
  decide

end FluentBit.StreamProcessor.Condition
