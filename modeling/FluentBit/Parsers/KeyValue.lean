import FluentBit.Foundation.Msgpack
import FluentBit.Parsers.Strptime
import Mathlib.Data.List.TakeWhile

/-! The loop that `ltsv_parser` and `logfmt_parser` share: one pass over a text counts the pairs, another one
packs them. What `c` points to is the bytes from there to `end`; to read a byte behind `end` is a fault, and
so is a loop that does not end. Decoders get what comes out here. -/

set_option autoImplicit false

namespace FluentBit.KeyValue

open List Nat Ascii
open Ascii (ofString)
open Msgpack (Object)

inductive TypeKind where
  | int
  | hex
  | float
  | bool
  | string
  | other

structure ParserType where
  key : Option Bytes
  type : TypeKind

/-- What is packed for the numbers that `atoll`, `strtoull` and `atof` find. -/
structure Numbers where
  int : Bytes → Object
  hex : Bytes → Object
  float : Bytes → Object

def castValue (numbers : Numbers) (val : Bytes) : TypeKind → Object
  | .int => numbers.int val
  | .hex => numbers.hex val
  | .float => numbers.float val
  | .bool =>
    if Strptime.named "true" val then .boolean true
    else if Strptime.named "false" val then .boolean false
    else .str val
  | .string => .str val
  | .other => .str val

def flbParserTypecast (numbers : Numbers) (types : List ParserType) (key val : Bytes) : Object × Object :=
  match types.find? fun type => type.key == some key with
  | some type => (.str key, castValue numbers val type.type)
  | none => (.str key, .str val)

structure Pair where
  key : Bytes
  value : Bytes
  set : Bool := true
  quoted : Bool := false
  escaped : Bool := false

/-- What is read of `struct flb_parser` besides its types; the format of the time is `flb_parser_time_lookup`
with it. -/
structure Parser (Time : Type) where
  timeKey : Option Bytes
  timeFmt : Option (Bytes → Option Time)
  timeKeep : Bool
  logfmtNoBareKeys : Bool

structure Pass (α Time : Type) where
  mapSize : Nat := 0
  packed : List α := []
  time : Option Time := none

inductive Turn where
  | stop (left : Bytes)
  | next (pair : Option Pair) (more : Bool) (left : Bytes)

variable {α Time : Type}

def Parser.timeOf (parser : Parser Time) (pair : Pair) : Option (Option Time) :=
  if pair.key = parser.timeKey.getD (ofString "time") ∧ pair.value ≠ [] then
    parser.timeFmt.map fun lookup => lookup pair.value
  else none

def Pass.add (pass : Pass α Time) (doPack : Bool) (pair : α) : Pass α Time :=
  if doPack then { pass with packed := pass.packed ++ [pair] } else { pass with mapSize := pass.mapSize + 1 }

def Parser.take (parser : Parser Time) (pack : Pair → α) (doPack : Bool) (pass : Pass α Time) (pair : Pair) :
    Option (Pass α Time) :=
  if parser.logfmtNoBareKeys = true ∧ pair.value = [] ∧ pair.set = false then none
  else
    match parser.timeOf pair with
    | none => some (pass.add doPack (pack pair))
    | some found =>
      if doPack = true ∧ found.isNone = true then none
      else
        let pass := if doPack then { pass with time := found } else pass
        some (if parser.timeKeep then pass.add doPack (pack pair) else pass)

/-- `ltsv_parser` or `logfmt_parser`: nothing for a fault, and nothing inside for an early return. -/
def passOver (parser : Parser Time) (turn : Bytes → Option Turn) (pack : Pair → α) (doPack : Bool) :
    Nat → Bytes → Pass α Time → Option (Option (Pass α Time × Bytes))
  | 0, _, _ => none
  | fuel + 1, c, pass =>
    if c = [] then some (some (pass, []))
    else
      match turn c with
      | none => none
      | some (.stop left) => some (some (pass, left))
      | some (.next pair more left) =>
        match pair.elim (some pass) (parser.take pack doPack pass) with
        | none => some none
        | some pass =>
          if more then passOver parser turn pack doPack fuel left pass else some (some (pass, left))

structure Record (α Time : Type) where
  mapSize : Nat
  packed : List α
  time : Option Time
  lastByte : Int

/-- `flb_parser_ltsv_do` or `flb_parser_logfmt_do`. A bare key that is not allowed is met by the first pass,
which then has counted nothing. -/
def parserDo (parser : Parser Time) (turn : Bytes → Option Turn) (pack : Pair → α) (inBuf : Bytes) :
    Option (Option (Record α Time)) :=
  match passOver parser turn pack false (inBuf.length + 1) inBuf {} with
  | none => none
  | some counted =>
    let mapSize := counted.elim 0 fun (pass, _) => pass.mapSize
    if mapSize = 0 then some none
    else
      match passOver parser turn pack true (inBuf.length + 1) inBuf {} with
      | none => none
      | some none => some none
      | some (some (pass, left)) =>
        let lastByte := (BitVec.ofNat 32 (inBuf.length - left.length)).toInt
        if lastByte < 0 then some none
        else some (some { mapSize, packed := pass.packed, time := pass.time, lastByte })

/-- The end of a turn: whether the line goes on behind `c`. -/
def lineEnd (c : Bytes) : Option (Bool × Bytes) :=
  if c = [] then some (false, [])
  else do
    let byte ← c.head?
    if byte = carriageReturn then
      if c.tail = [] then pure (false, [])
      else
        let byte ← c.tail.head?
        pure (false, if byte = newline then c.tail.tail else c.tail)
    else if byte = newline then pure (false, c.tail)
    else pure (true, c)

structure Cut (accepts : UInt8 → Bool) (c first rest : Bytes) : Prop where
  parts : c = first ++ rest
  accepted : ∀ byte ∈ first, accepts byte = true
  stops : rest.head?.any accepts = false

theorem Cut.eq {accepts : UInt8 → Bool} {c first rest : Bytes} (cut : Cut accepts c first rest) :
    c.takeWhile accepts = first ∧ c.dropWhile accepts = rest := by
  rw [cut.parts, takeWhile_append_of_pos cut.accepted, dropWhile_append_of_pos cut.accepted]
  cases rest with
  | nil => simp
  | cons byte rest =>
    have refused : accepts byte = false := cut.stops
    simp [refused]

theorem exists_cut (accepts : UInt8 → Bool) (c : Bytes) :
    Cut accepts c (c.takeWhile accepts) (c.dropWhile accepts) where
  parts := takeWhile_append_dropWhile.symm
  accepted := fun _ member => mem_takeWhile_imp member
  stops := by
    cases behind : c.dropWhile accepts with
    | nil => rfl
    | cons byte rest =>
      have refused := List.head?_dropWhile_not accepts c
      rw [behind] at refused
      simpa using refused

theorem lineEnd_total (c : Bytes) : ∃ more left, lineEnd c = some (more, left) ∧ left.length ≤ c.length := by
  cases c with
  | nil => exact ⟨_, _, rfl, Nat.le_refl _⟩
  | cons byte c =>
    simp only [lineEnd, cons_ne_nil, if_false, List.head?_cons, Option.bind_eq_bind, Option.bind_some, tail_cons]
    split
    · cases c with
      | nil => exact ⟨_, _, rfl, Nat.zero_le _⟩
      | cons next c =>
        refine ⟨_, _, rfl, ?_⟩
        split
        · exact le_succ_of_le (le_succ _)
        · exact le_succ _
    · split
      · exact ⟨_, _, rfl, le_succ _⟩
      · exact ⟨_, _, rfl, Nat.le_refl _⟩

theorem lineEnd_goes {byte : UInt8} (c : Bytes) (plain : byte ≠ carriageReturn ∧ byte ≠ newline) :
    lineEnd (byte :: c) = some (true, byte :: c) := by
  simp [lineEnd, plain]

/-! ### The pairs of a text -/

inductive Walk (turn : Bytes → Option Turn) : Bytes → List Pair → Bytes → Prop where
  | ended : Walk turn [] [] []
  | stop {c left : Bytes} (nonempty : c ≠ []) (step : turn c = some (.stop left)) : Walk turn c [] left
  | last {c left : Bytes} {pair : Option Pair} (nonempty : c ≠ []) (step : turn c = some (.next pair false left)) :
      Walk turn c pair.toList left
  | more {c rest left : Bytes} {pair : Option Pair} {pairs : List Pair} (nonempty : c ≠ [])
      (step : turn c = some (.next pair true rest)) (shrinks : rest.length < c.length) (walk : Walk turn rest pairs left) :
      Walk turn c (pair.toList ++ pairs) left

def Steady (turn : Bytes → Option Turn) : Prop :=
  ∀ c ≠ [], ∃ found, turn c = some found ∧ ∀ pair more left, found = .next pair more left → left.length < c.length

namespace Parser

def allows (parser : Parser Time) (pair : Pair) : Bool :=
  !(parser.logfmtNoBareKeys && pair.value == [] && pair.set == false)

def passes (parser : Parser Time) (pair : Pair) : Bool :=
  parser.allows pair && (parser.timeOf pair).all Option.isSome

def keeps (parser : Parser Time) (pair : Pair) : Bool := (parser.timeOf pair).isNone || parser.timeKeep

def timeAfter (parser : Parser Time) (pairs : List Pair) (time : Option Time) : Option Time :=
  pairs.foldl (fun time pair => (parser.timeOf pair).getD time) time

end Parser

variable {parser : Parser Time} {turn : Bytes → Option Turn} {pack : Pair → α} {c left : Bytes} {pairs : List Pair}

theorem Steady.walks (steady : Steady turn) (c : Bytes) : ∃ pairs left, Walk turn c pairs left := by
  induction size : c.length using Nat.strongRecOn generalizing c with
  | ind size ih =>
    by_cases nonempty : c = []
    · subst nonempty
      exact ⟨_, _, .ended⟩
    obtain ⟨found, step, shrinks⟩ := steady c nonempty
    cases found with
    | stop left => exact ⟨_, _, .stop nonempty step⟩
    | next pair more rest =>
      cases more with
      | false => exact ⟨_, _, .last nonempty step⟩
      | true =>
        have shorter := shrinks pair true rest rfl
        obtain ⟨pairs, left, walk⟩ := ih rest.length (size ▸ shorter) rest rfl
        exact ⟨_, _, .more nonempty step shorter walk⟩

theorem passOver_walk (walk : Walk turn c pairs left) {fuel : Nat} (enough : c.length < fuel) (doPack : Bool)
    (pass : Pass α Time) : passOver parser turn pack doPack fuel c pass =
      some ((pairs.foldlM (parser.take pack doPack) pass).map fun pass => (pass, left)) := by
  have first (pair : Option Pair) (pass : Pass α Time) :
      pair.elim (some pass) (parser.take pack doPack pass) = pair.toList.foldlM (parser.take pack doPack) pass := by
    cases pair with
    | none => rfl
    | some pair => simp
  induction walk generalizing fuel pass with
  | ended =>
    obtain ⟨fuel, rfl⟩ := exists_eq_succ_of_ne_zero (Nat.ne_of_gt enough)
    rfl
  | stop nonempty step =>
    obtain ⟨fuel, rfl⟩ := exists_eq_succ_of_ne_zero (Nat.ne_of_gt (zero_lt_of_lt enough))
    rw [passOver, if_neg nonempty, step]
    rfl
  | @last _ _ pair nonempty step =>
    obtain ⟨fuel, rfl⟩ := exists_eq_succ_of_ne_zero (Nat.ne_of_gt (zero_lt_of_lt enough))
    simp only [passOver, if_neg nonempty, step, first]
    cases pair.toList.foldlM (parser.take pack doPack) pass with
    | none => rfl
    | some pass => rfl
  | @more _ _ _ pair _ nonempty step shrinks _ ih =>
    obtain ⟨fuel, rfl⟩ := exists_eq_succ_of_ne_zero (Nat.ne_of_gt (zero_lt_of_lt enough))
    simp only [passOver, if_neg nonempty, step, first, foldlM_append]
    cases pair.toList.foldlM (parser.take pack doPack) pass with
    | none => rfl
    | some pass => exact ih (Nat.lt_of_lt_of_le shrinks (le_of_lt_succ enough)) pass

theorem allows_iff (pair : Pair) :
    parser.allows pair = true ↔ ¬ (parser.logfmtNoBareKeys = true ∧ pair.value = [] ∧ pair.set = false) := by
  rw [Parser.allows, Bool.not_eq_true', ← Bool.not_eq_true]
  simp [and_assoc]

variable (pass : Pass α Time)

theorem take_packs (pair : Pair) : parser.take pack true pass pair = if parser.passes pair then
        some { pass with packed := pass.packed ++ ([pair].filter parser.keeps).map pack,
                         time := (parser.timeOf pair).getD pass.time } else none := by
  unfold Parser.take Parser.passes
  split
  next bare =>
    have refused := mt (allows_iff pair).mp (not_not_intro bare)
    simp [refused]
  next allowed =>
    rw [(allows_iff pair).mpr allowed, Bool.true_and]
    cases result : parser.timeOf pair with
    | none => simp [Pass.add, Parser.keeps, result]
    | some found =>
      cases found with
      | none => rfl
      | some time => cases keep : parser.timeKeep <;> simp [Pass.add, Parser.keeps, result, keep]

theorem take_counts (pair : Pair) : parser.take pack false pass pair =
      if parser.allows pair then some { pass with mapSize := pass.mapSize + ([pair].filter parser.keeps).length }
      else none := by
  unfold Parser.take
  split
  next bare =>
    have refused := mt (allows_iff pair).mp (not_not_intro bare)
    simp [refused]
  next allowed =>
    rw [(allows_iff pair).mpr allowed]
    cases result : parser.timeOf pair with
    | none => simp [Pass.add, Parser.keeps, result]
    | some found => cases keep : parser.timeKeep <;> simp [Pass.add, Parser.keeps, result, keep]

theorem foldlM_packs : pairs.foldlM (parser.take pack true) pass = if pairs.all parser.passes then
        some { pass with packed := pass.packed ++ (pairs.filter parser.keeps).map pack,
                         time := parser.timeAfter pairs pass.time } else none := by
  induction pairs generalizing pass with
  | nil => simp [Parser.timeAfter]
  | cons pair pairs ih =>
    rw [foldlM_cons, take_packs, all_cons, Parser.timeAfter, foldl_cons]
    cases passes : parser.passes pair with
    | false => rfl
    | true =>
      simp only [if_true, Option.bind_eq_bind, Option.bind_some, ih, Bool.true_and, append_assoc]
      rw [← singleton_append (l := pairs), filter_append, map_append]
      rfl

theorem foldlM_counts : pairs.foldlM (parser.take pack false) pass =
      if pairs.all parser.allows then some { pass with mapSize := pass.mapSize + (pairs.filter parser.keeps).length }
      else none := by
  induction pairs generalizing pass with
  | nil => rfl
  | cons pair pairs ih =>
    rw [foldlM_cons, take_counts, all_cons]
    cases allows : parser.allows pair with
    | false => rfl
    | true =>
      simp only [if_true, Option.bind_eq_bind, Option.bind_some, ih, Bool.true_and]
      rw [← singleton_append (l := pairs), filter_append, length_append, Nat.add_assoc]

variable {inBuf : Bytes}

theorem parserDo_walk (walk : Walk turn inBuf pairs left) : parserDo parser turn pack inBuf = some (
      if pairs.all parser.passes = true ∧ pairs.filter parser.keeps ≠ [] ∧
          0 ≤ (BitVec.ofNat 32 (inBuf.length - left.length)).toInt then
        some { mapSize := (pairs.filter parser.keeps).length
               packed := (pairs.filter parser.keeps).map pack
               time := parser.timeAfter pairs none
               lastByte := (BitVec.ofNat 32 (inBuf.length - left.length)).toInt } else none) := by
  have enough := lt_succ_self inBuf.length
  have allowed (every : pairs.all parser.passes = true) : pairs.all parser.allows = true := by
    rw [all_eq_true] at every ⊢
    intro pair member
    exact (Bool.and_eq_true_iff.mp (every pair member)).1
  rw [parserDo, passOver_walk walk enough, passOver_walk walk enough, foldlM_packs, foldlM_counts]
  cases allows : pairs.all parser.allows with
  | false =>
    have refused : ¬ pairs.all parser.passes = true := fun every => absurd ((allowed every).symm.trans allows) (by decide)
    simp [refused]
  | true =>
    simp only [if_true, Option.map_some, Option.elim_some, Nat.zero_add, nil_append, length_eq_zero_iff]
    split
    next none => rw [if_neg fun right => right.2.1 none]
    next kept =>
      cases passes : pairs.all parser.passes with
      | false => simp
      | true =>
        simp only [if_true, Option.map_some, true_and, ne_eq, kept, not_false_eq_true]
        split
        next negative => rw [if_neg (Int.not_le.mpr negative)]
        next positive => rw [if_pos (Int.not_lt.mp positive)]

/-- The parser gives all the pairs if it keeps each one, and only then. -/
theorem parserDo_exact {Item : Type} {items : List Item} {found : Item → Pair} {expected : Item → α}
    (nonempty : items ≠ []) (walk : Walk turn inBuf (items.map found) left) (lastByte : Int) :
    (∃ time, parserDo parser turn pack inBuf =
        some (some { mapSize := items.length, packed := items.map expected, time, lastByte })) ↔
      (∀ item ∈ items, parser.passes (found item) = true ∧ parser.keeps (found item) = true ∧
        pack (found item) = expected item) ∧
      0 ≤ lastByte ∧ (BitVec.ofNat 32 (inBuf.length - left.length)).toInt = lastByte := by
  rw [parserDo_walk walk]
  constructor
  · rintro ⟨time, result⟩
    split at result
    next right =>
      simp only [Option.some.injEq, Record.mk.injEq] at result
      obtain ⟨count, packed, _, last⟩ := result
      have lengths : items.length = (items.map found).length := (length_map ..).symm
      rw [lengths, length_filter_eq_length_iff] at count
      rw [filter_eq_self.mpr count, map_map, map_inj_left] at packed
      refine ⟨?_, last ▸ right.2.2, last⟩
      intro item member
      have pairMember := mem_map_of_mem (f := found) member
      exact ⟨all_eq_true.mp right.1 _ pairMember, count _ pairMember, packed item member⟩
    · cases result
  · rintro ⟨each, positive, last⟩
    have passes : (items.map found).all parser.passes = true := by
      simpa using fun item member => (each item member).1
    have keeps : (items.map found).filter parser.keeps = items.map found := by
      simpa using fun item member => (each item member).2.1
    refine ⟨parser.timeAfter (items.map found) none, ?_⟩
    rw [if_pos ⟨passes, by simpa [keeps] using nonempty, last ▸ positive⟩, keeps, last, length_map, map_map]
    congr 3
    exact map_congr_left fun item member => (each item member).2.2

end FluentBit.KeyValue
