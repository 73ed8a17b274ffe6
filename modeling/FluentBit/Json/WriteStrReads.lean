import FluentBit.Foundation.Reading
import FluentBit.Json.WriteStrBuilds

/-! The memory that `flb_utils_write_str` reads and writes. The string is read from a memory that goes on behind it, and
positions are `int`s as in the source. The loop over blocks may start again where a whole vector is not left of the
string: only then something behind the string is read. -/

set_option autoImplicit false

namespace FluentBit.Json

open List Nat Reading

/-- A build with the number of bytes that a load reads: all of a vector, or none when each block counts as special. -/
structure Build where
  lanes : Lanes
  loads : Nat
  wide : 0 < lanes.width
  loaded : loads = lanes.width ∨ loads = 0 ∧ lanes.special [] = true

def sse2Build : Build where
  lanes := sse2
  loads := 16
  wide := by decide
  loaded := .inl rfl

/-- `i`, `copypos` and `b`, which has no value in the loop over blocks, with what is written so far. -/
structure Spot where
  i : Nat
  copypos : Nat
  b : Option Nat
  written : Bytes

def Spot.start : Spot where
  i := 0
  copypos := 0
  b := none
  written := []

/-- `FLB_TRUE`, `FLB_FALSE`, or an `int` that overflows, with what has been written from the offset on. -/
inductive Outcome where
  | done (written : Bytes)
  | full (written : Bytes)
  | overflow (written : Bytes)
deriving DecidableEq, Repr

def Outcome.written : Outcome → Bytes
  | .done written => written
  | .full written => written
  | .overflow written => written

/-- `vlen`, an `int` made of a `size_t`. -/
def vlen (width len : Nat) : Int := (BitVec.ofNat 32 (len - len % width)).toInt

section

open Reading

variable (build : Build) (len available : Nat)

def continuations : Nat → Nat → Reading UInt8 Bytes
  | 0, _ => pure []
  | due + 1, i => do
      let byte ← cell i
      if isContinuation byte then
        let later ← continuations due (i + 1)
        return byte :: later
      else return []

/-- What the loop over characters does at a position, unless an `int` overflows. -/
def nextStepAt (i : Nat) : Reading UInt8 (Option Step) := do
  let byte ← cell i
  match jsonEscape byte with
  | some out => return some { out, used := 1, counter := none, breaks := false }
  | none =>
    if byte < 0x80 then return some { out := [byte], used := 1, counter := none, breaks := false }
    else if 2 ^ 31 ≤ i + utf8Len byte then return none
    else if len < i + utf8Len byte then return some { out := [], used := 1, counter := none, breaks := true }
    else if byte < 0xc0 then return some { out := fragment byte, used := 1, counter := some 1, breaks := false }
    else
      let later ← continuations (utf8Len byte - 1) (i + 1)
      let bytes := byte :: later
      if bytes.length = utf8Len byte then
        return some { out := bytes, used := bytes.length, counter := none, breaks := false }
      else
        return some { out := bytes.flatMap fragment, used := bytes.length, counter := some bytes.length, breaks := false }

def Spot.behind (spot : Spot) (b : Nat) (step : Step) : Spot :=
  let i := spot.i + step.used
  let counter := step.counter.getD b + 1
  if step.breaks = true ∨ build.lanes.width ≤ counter then
    { i, copypos := i, b := none, written := spot.written ++ step.out }
  else { i, copypos := spot.copypos, b := some counter, written := spot.written ++ step.out }

def putStep (spot : Spot) (b : Nat) : Option Step → Spot ⊕ Outcome
  | none => .inr (.overflow spot.written)
  | some step =>
    if available - spot.written.length < step.out.length then .inr (.full spot.written)
    else if 2 ^ 31 ≤ spot.i + step.used then .inr (.overflow (spot.written ++ step.out))
    else .inl (spot.behind build b step)

def characterAt (spot : Spot) (b : Nat) : Reading UInt8 (Spot ⊕ Outcome) :=
  if len ≤ spot.i then pure (.inr (.done spot.written))
  else do
    let step ← nextStepAt len spot.i
    return putStep build available spot b step

def copyAt (spot : Spot) : Reading UInt8 (Spot ⊕ Outcome) :=
  if spot.copypos < spot.i then
    if available - spot.written.length < spot.i - spot.copypos then pure (.inr (.full spot.written))
    else do
      let chunk ← cells spot.copypos (spot.i - spot.copypos)
      return .inl { i := spot.i, copypos := spot.i, b := some 0, written := spot.written ++ chunk }
  else pure (.inl { spot with b := some 0 })

def nextBlock (spot : Spot) : Spot ⊕ Outcome :=
  if 2 ^ 31 ≤ spot.i + build.lanes.width then .inr (.overflow spot.written)
  else .inl { spot with i := spot.i + build.lanes.width }

def blockAt (spot : Spot) : Reading UInt8 (Spot ⊕ Outcome) :=
  if spot.i < vlen build.lanes.width len then do
    let chunk ← cells spot.i build.loads
    if build.lanes.special chunk then copyAt available spot else return nextBlock build spot
  else copyAt available spot

def passAt (spot : Spot) : Reading UInt8 (Spot ⊕ Outcome) :=
  match spot.b with
  | none => blockAt build len available spot
  | some b => characterAt build len available spot b

end

/-- `flb_utils_write_str` on a string at the start of a memory. -/
def writeStrAt (build : Build) (off size len : Nat) : Reading UInt8 (Option Outcome) :=
  -- the difference of two `size_t` wraps if the offset is behind the buffer
  let available := if off ≤ size then size - off else 2 ^ 64 + size - off
  if available < len then pure (some (.full []))
  else iterate (passAt build len available) (3 * len + 3) .start

section

variable (build : Build) (str : Bytes) (available : Nat)

def copyOf (spot : Spot) : Spot ⊕ Outcome :=
  if spot.copypos < spot.i then
    if available - spot.written.length < spot.i - spot.copypos then .inr (.full spot.written)
    else .inl {
      i := spot.i, copypos := spot.i, b := some 0
      written := spot.written ++ (str.drop spot.copypos).take (spot.i - spot.copypos) }
  else .inl { spot with b := some 0 }

def blockOf (spot : Spot) : Spot ⊕ Outcome :=
  if spot.i < vlen build.lanes.width str.length ∧ build.lanes.special ((str.drop spot.i).take build.loads) = false then
    nextBlock build spot
  else copyOf str available spot

def characterOf (spot : Spot) (b : Nat) : Spot ⊕ Outcome :=
  match str.drop spot.i with
  | [] => .inr (.done spot.written)
  | byte :: rest =>
    if 0x80 ≤ byte ∧ 2 ^ 31 ≤ spot.i + utf8Len byte then .inr (.overflow spot.written)
    else putStep build available spot b (some (nextStep byte rest))

def passOf (spot : Spot) : Spot ⊕ Outcome :=
  match spot.b with
  | none => blockOf build str available spot
  | some b => characterOf build str available spot b

def LoadsInside (spot : Spot) : Prop :=
  spot.b = none → spot.i < vlen build.lanes.width str.length → spot.i + build.loads ≤ str.length

inductive Comes : Spot → Prop where
  | start : Comes .start
  | next {spot next : Spot} : Comes spot → LoadsInside build str spot → passOf build str available spot = .inl next →
      Comes next

def StaysInside : Prop :=
  ∀ spot, Comes build str available spot →
    LoadsInside build str spot ∧ ∀ written, passOf build str available spot ≠ .inr (.overflow written)

end

/-! ### What a pass reads -/

variable {memory : Nat → UInt8} {build : Build} {len available : Nat}

def span (memory : Nat → UInt8) (start count : Nat) : Bytes := (List.range' start count).map memory

theorem span_length (start count : Nat) : (span memory start count).length = count := by simp [span]

theorem span_drop (skipped start count : Nat) :
    (span memory start count).drop skipped = span memory (start + skipped) (count - skipped) := by
  simp [span, ← map_drop, drop_range']

theorem span_take {taken start count : Nat} (inside : taken ≤ count) :
    (span memory start count).take taken = span memory start taken := by
  simp [span, ← map_take, take_range'_of_length_ge inside]

theorem span_succ (start count : Nat) : span memory start (count + 1) = memory start :: span memory (start + 1) count := by
  simp [span, List.range'_succ]

theorem vlen_le (width len : Nat) : vlen width len ≤ len := by
  have small : (BitVec.ofNat 32 (len - len % width)).toInt ≤ (BitVec.ofNat 32 (len - len % width)).toNat := by
    rw [BitVec.toInt_eq_toNat_cond]
    split
    · exact le_refl _
    · omega
  rw [BitVec.toNat_ofNat] at small
  have reduced : (len - len % width) % 2 ^ 32 ≤ len := (mod_le _ _).trans (sub_le _ _)
  rw [vlen]
  omega

theorem value_continuations (due i : Nat) :
    (continuations due i).value memory = (span memory i due).takeWhile isContinuation := by
  induction due generalizing i with
  | zero => rfl
  | succ due ih =>
    rw [continuations, value_read, span_succ, takeWhile_cons]
    cases isContinuation (memory i) with
    | true => simp [ih]
    | false => rfl

variable {i : Nat}

theorem within_continuations {due bound : Nat} (inside : i + due ≤ bound) :
    (continuations due i).Within memory bound := by
  induction due generalizing i with
  | zero => exact within_pure []
  | succ due ih =>
    rw [continuations, within_read]
    constructor
    · omega
    · cases isContinuation (memory i) with
      | true =>
        rw [if_pos rfl, within_bind]
        exact ⟨ih (by omega), within_pure _⟩
      | false => exact within_pure []

theorem value_nextStepAt (inside : i < len) : (nextStepAt len i).value memory =
      if 0x80 ≤ memory i ∧ 2 ^ 31 ≤ i + utf8Len (memory i) then none
      else some (nextStep (memory i) (span memory (i + 1) (len - (i + 1)))) := by
  rw [nextStepAt, value_read, nextStep, span_length]
  cases escape : jsonEscape (memory i) with
  | some out =>
    have ascii : ¬ 0x80 ≤ memory i := by
      intro high
      rw [jsonEscape_lead _ high] at escape
      cases escape
    simp [ascii]
  | none =>
    by_cases ascii : memory i < 0x80
    · have low : ¬ 0x80 ≤ memory i := UInt8.not_le.mpr ascii
      simp [ascii, low]
    · have high : 0x80 ≤ memory i := UInt8.not_lt.mp ascii
      have short : len - (i + 1) + 1 < utf8Len (memory i) ↔ len < i + utf8Len (memory i) := by omega
      simp only [ascii, high, if_false, true_and, short]
      by_cases overflows : 2 ^ 31 ≤ i + utf8Len (memory i)
      · rw [if_pos overflows, if_pos overflows]
        rfl
      · rw [if_neg overflows, if_neg overflows]
        by_cases truncated : len < i + utf8Len (memory i)
        · rw [if_pos truncated, if_pos truncated]
          rfl
        · rw [if_neg truncated, if_neg truncated]
          by_cases stray : memory i < 0xc0
          · rw [if_pos stray, if_pos stray]
            rfl
          · have bytes : sequenceBytes (memory i) (span memory (i + 1) (len - (i + 1))) =
                memory i :: (continuations (utf8Len (memory i) - 1) (i + 1)).value memory := by
              rw [sequenceBytes, span_take (by omega), value_continuations]
            rw [if_neg stray, if_neg stray, value_bind, ← bytes]
            split
            · rfl
            · rfl

theorem within_nextStepAt (inside : i < len) : (nextStepAt len i).Within memory len := by
  rw [nextStepAt, within_read]
  constructor
  · exact inside
  · cases jsonEscape (memory i) with
    | some out => exact within_pure _
    | none =>
      simp only
      split
      · exact within_pure _
      · split
        · exact within_pure _
        · split
          · exact within_pure _
          next long =>
            split
            · exact within_pure _
            · rw [within_bind]
              constructor
              · exact within_continuations (by omega)
              · split
                · exact within_pure _
                · exact within_pure _

variable {spot next : Spot} {written : Bytes}

structure Spot.Inside (len available : Nat) (spot : Spot) : Prop where
  copied : spot.copypos ≤ spot.i
  position : spot.i ≤ len
  room : spot.written.length ≤ available

section

variable (inside : spot.Inside len available)
include inside

theorem value_copyAt : (copyAt available spot).value memory = copyOf (span memory 0 len) available spot := by
  rw [copyAt, copyOf]
  split
  · split
    · rfl
    · have chunk : ((span memory 0 len).drop spot.copypos).take (spot.i - spot.copypos) =
          span memory spot.copypos (spot.i - spot.copypos) := by
        have position := inside.position
        rw [span_drop, span_take (by omega), Nat.zero_add]
      rw [value_bind, value_cells, chunk]
      rfl
  · rfl

theorem within_copyAt : (copyAt available spot).Within memory len := by
  have copied := inside.copied
  have position := inside.position
  rw [copyAt]
  split
  · split
    · exact within_pure _
    · rw [within_bind]
      exact ⟨within_cells (by omega), within_pure _⟩
  · exact within_pure _

theorem value_passAt (loads : LoadsInside build (span memory 0 len) spot) :
    (passAt build len available spot).value memory = passOf build (span memory 0 len) available spot := by
  rw [passAt, passOf]
  cases mode : spot.b with
  | none =>
    simp only [blockAt, blockOf, span_length]
    by_cases before : (spot.i : Int) < vlen build.lanes.width len
    · have inBlock : spot.i + build.loads ≤ len := by simpa [span_length] using loads mode (by simpa [span_length] using before)
      have chunk : ((span memory 0 len).drop spot.i).take build.loads = span memory spot.i build.loads := by
        rw [span_drop, span_take (by omega), Nat.zero_add]
      rw [if_pos before, value_bind, value_cells, chunk]
      change (if build.lanes.special (span memory spot.i build.loads) = true then _ else _ : Reading _ _).value memory = _
      cases build.lanes.special (span memory spot.i build.loads) with
      | true => simpa [before] using value_copyAt inside
      | false => simp [before]
    · simpa [before] using value_copyAt inside
  | some b =>
    simp only [characterAt, characterOf, span_drop, Nat.zero_add]
    by_cases last : len ≤ spot.i
    · simp [last, span]
    · obtain ⟨more, rest⟩ : ∃ more, len - spot.i = more + 1 := ⟨len - spot.i - 1, by omega⟩
      have behind : len - (spot.i + 1) = more := by omega
      rw [if_neg last, value_bind, value_nextStepAt (by omega), rest, span_succ, behind]
      simp only [value_pure]
      split
      · rfl
      · rfl

theorem within_passAt :
    (passAt build len available spot).Within memory len ↔ LoadsInside build (span memory 0 len) spot := by
  rw [passAt, LoadsInside, span_length]
  cases mode : spot.b with
  | none =>
    simp only [blockAt, true_implies]
    by_cases before : (spot.i : Int) < vlen build.lanes.width len
    · have position := inside.position
      simp only [before, if_true, true_implies, within_bind, within_cells_iff]
      constructor
      · rintro ⟨reads, -⟩
        omega
      · intro reads
        constructor
        · exact .inr reads
        · split
          · exact within_copyAt inside
          · exact within_pure _
    · simpa [before] using within_copyAt inside
  | some b =>
    simp only [characterAt, reduceCtorEq, false_implies, iff_true]
    split
    · exact within_pure _
    · rw [within_bind]
      exact ⟨within_nextStepAt (by omega), within_pure _⟩

end

theorem Build.loads_of_clean (build : Build) {bytes : Bytes}
    (clean : build.lanes.special (bytes.take build.loads) = false) : build.loads = build.lanes.width := by
  cases build.loaded with
  | inl same => exact same
  | inr nothing =>
    rw [nothing.1, take_zero, nothing.2] at clean
    cases clean

/-! ### The loops -/

def Spot.due (len : Nat) (spot : Spot) : Nat := 3 * (len - spot.i) + if spot.b = none then 2 else 1

theorem nextBlock_inl (moves : nextBlock build spot = .inl next) : next = { spot with i := spot.i + build.lanes.width } := by
  rw [nextBlock] at moves
  split at moves
  · cases moves
  · exact (Sum.inl.inj moves).symm

theorem copyAt_inl (moves : (copyAt available spot).value memory = .inl next) : next.i = spot.i ∧ next.b = some 0 := by
  rw [copyAt] at moves
  split at moves
  · split at moves
    · cases moves
    · rw [value_bind, value_pure] at moves
      obtain rfl := Sum.inl.inj moves
      exact ⟨rfl, rfl⟩
  · obtain rfl := Sum.inl.inj moves
    exact ⟨rfl, rfl⟩

theorem putStep_inl {b : Nat} {step : Step} (moves : putStep build available spot b (some step) = .inl next) :
    next = spot.behind build b step ∧ step.out.length ≤ available - spot.written.length := by
  rw [putStep] at moves
  split at moves
  · cases moves
  next fits =>
    split at moves
    · cases moves
    · exact ⟨(Sum.inl.inj moves).symm, not_lt.mp fits⟩

theorem behind_i (b : Nat) (step : Step) : (spot.behind build b step).i = spot.i + step.used := by
  rw [Spot.behind]
  split
  · rfl
  · rfl

theorem due_passAt (spot next : Spot) (moves : (passAt build len available spot).value memory = .inl next) :
    next.due len < spot.due len := by
  rw [passAt] at moves
  cases mode : spot.b with
  | none =>
    simp only [mode, blockAt] at moves
    by_cases before : (spot.i : Int) < vlen build.lanes.width len
    · rw [if_pos before, value_bind, value_cells] at moves
      have upper := vlen_le build.lanes.width len
      have wide := build.wide
      cases special : build.lanes.special ((List.range' spot.i build.loads).map memory) with
      | true =>
        rw [special, if_pos rfl] at moves
        obtain ⟨position, counter⟩ := copyAt_inl moves
        simp [Spot.due, position, counter, mode]
      | false =>
        rw [special, if_neg (by decide), value_pure] at moves
        rw [nextBlock_inl moves]
        simp only [Spot.due, mode, if_true]
        omega
    · rw [if_neg before] at moves
      obtain ⟨position, counter⟩ := copyAt_inl moves
      simp [Spot.due, position, counter, mode]
  | some b =>
    simp only [mode, characterAt] at moves
    by_cases last : len ≤ spot.i
    · rw [if_pos last] at moves
      cases moves
    · rw [if_neg last, value_bind, value_nextStepAt (by omega), value_pure] at moves
      split at moves
      · cases moves
      · obtain ⟨rfl, _⟩ := putStep_inl moves
        have used := (nextStep_shape (memory spot.i) (span memory (spot.i + 1) (len - (spot.i + 1)))).used.1
        simp only [Spot.due, behind_i, mode, reduceCtorEq, if_false]
        split
        · omega
        · omega

theorem due_start : Spot.start.due len < 3 * len + 3 := by
  simp [Spot.due, Spot.start]

theorem inside_start : Spot.start.Inside len available where
  copied := le_refl _
  position := Nat.zero_le _
  room := Nat.zero_le _

variable {str : Bytes}

theorem inside_copyOf (inside : spot.Inside str.length available) (moves : copyOf str available spot = .inl next) :
    next.Inside str.length available := by
  have position := inside.position
  have room := inside.room
  rw [copyOf] at moves
  split at moves
  · split at moves
    · cases moves
    next fits =>
      obtain rfl := Sum.inl.inj moves
      constructor
      · exact le_refl _
      · exact position
      · simp only [length_append, length_take, length_drop]
        omega
  · obtain rfl := Sum.inl.inj moves
    exact ⟨inside.copied, position, room⟩

theorem inside_passOf (inside : spot.Inside str.length available) (loads : LoadsInside build str spot)
    (moves : passOf build str available spot = .inl next) : next.Inside str.length available := by
  rw [passOf] at moves
  cases mode : spot.b with
  | none =>
    simp only [mode, blockOf] at moves
    split at moves
    next block =>
      obtain ⟨before, clean⟩ := block
      have inBlock := loads mode before
      rw [nextBlock_inl moves]
      have all := build.loads_of_clean clean
      constructor
      · exact inside.copied.trans (Nat.le_add_right ..)
      · change spot.i + build.lanes.width ≤ str.length
        omega
      · exact inside.room
    · exact inside_copyOf inside moves
  | some b =>
    simp only [mode, characterOf] at moves
    split at moves
    · cases moves
    next byte rest here =>
      split at moves
      · cases moves
      · obtain ⟨rfl, fits⟩ := putStep_inl moves
        have used := (nextStep_shape byte rest).used.2
        have left := congrArg List.length here
        rw [length_drop, length_cons] at left
        have copied := inside.copied
        have room := inside.room
        rw [Spot.behind]
        split
        · constructor
          · exact le_refl _
          · change spot.i + (nextStep byte rest).used ≤ str.length
            omega
          · rw [length_append]
            omega
        · constructor
          · change spot.copypos ≤ spot.i + (nextStep byte rest).used
            omega
          · change spot.i + (nextStep byte rest).used ≤ str.length
            omega
          · rw [length_append]
            omega

theorem Comes.inside (comes : Comes build str available spot) : spot.Inside str.length available := by
  induction comes with
  | start => exact inside_start
  | next _ loads moves ih => exact inside_passOf ih loads moves

theorem room_passOf {outcome : Outcome} (inside : spot.Inside str.length available)
    (ends : passOf build str available spot = .inr outcome) (defined : ∀ written, outcome ≠ .overflow written) :
    outcome.written.length ≤ available := by
  have atSpot : outcome.written = spot.written := by
    rw [passOf] at ends
    cases mode : spot.b with
    | none =>
      simp only [mode, blockOf, nextBlock, copyOf] at ends
      split at ends
      · split at ends
        · rw [← Sum.inr.inj ends]
          rfl
        · cases ends
      · split at ends
        · split at ends
          · rw [← Sum.inr.inj ends]
            rfl
          · cases ends
        · cases ends
    | some b =>
      simp only [mode, characterOf] at ends
      split at ends
      · rw [← Sum.inr.inj ends]
        rfl
      · split at ends
        · exact absurd (Sum.inr.inj ends).symm (defined _)
        · rw [putStep] at ends
          split at ends
          · rw [← Sum.inr.inj ends]
            rfl
          · split at ends
            · exact absurd (Sum.inr.inj ends).symm (defined _)
            · cases ends
  rw [atSpot]
  exact inside.room

theorem Comes.reaches (comes : Comes build (span memory 0 len) available spot) :
    Reading.Reaches (passAt build len available) memory .start spot := by
  induction comes with
  | start => exact .start
  | next comes loads moves ih =>
    have inside := comes.inside
    rw [span_length] at inside
    exact ih.next ((value_passAt inside loads).trans moves)

theorem StaysInside.comes (stays : StaysInside build (span memory 0 len) available)
    (reaches : Reading.Reaches (passAt build len available) memory .start spot) :
    Comes build (span memory 0 len) available spot := by
  induction reaches with
  | start => exact .start
  | next _ moves ih =>
    have loads := (stays _ ih).1
    have inside := ih.inside
    rw [span_length] at inside
    exact .next ih loads ((value_passAt inside loads).symm.trans moves)

/-- The function reads the string only, no `int` overflows, what it writes lies in the buffer, and it does not depend
on what is behind the string. -/
structure MemorySafe (build : Build) (memory : Nat → UInt8) (off size len : Nat) : Prop where
  reads : (writeStrAt build off size len).Within memory len
  writes : ∃ outcome, (writeStrAt build off size len).value memory = some outcome ∧
    (∀ written, outcome ≠ .overflow written) ∧ off + outcome.written.length ≤ size
  ofString : ∀ other : Nat → UInt8, (∀ index < len, memory index = other index) →
    (writeStrAt build off size len).value memory = (writeStrAt build off size len).value other

/-- The function is safe just when the string does not fit into the buffer, which is found first, or the loop over blocks
is only entered where it loads bytes of the string, and positions stay below 2³¹. -/
theorem writeStr_safe_iff (build : Build) (memory : Nat → UInt8) (len : Nat) {off size : Nat} (inside : off ≤ size) :
    MemorySafe build memory off size len ↔ size - off < len ∨ StaysInside build (span memory 0 len) (size - off) := by
  by_cases short : size - off < len
  · have program : writeStrAt build off size len = pure (some (.full [])) := by
      rw [writeStrAt, if_pos inside]
      exact if_pos short
    refine ⟨fun _ => .inl short, fun _ => ⟨?_, ?_, ?_⟩⟩
    · rw [program]
      exact within_pure _
    · exact ⟨.full [], by rw [program]; rfl, by simp, by simpa [Outcome.written] using inside⟩
    · intro other _
      rw [program]
      rfl
  · have program : writeStrAt build off size len = iterate (passAt build len (size - off)) (3 * len + 3) .start := by
      rw [writeStrAt, if_pos inside]
      exact if_neg short
    have each : (iterate (passAt build len (size - off)) (3 * len + 3) .start).Within memory len ↔
        ∀ spot, Reading.Reaches (passAt build len (size - off)) memory .start spot →
          (passAt build len (size - off) spot).Within memory len := within_iterate due_passAt due_start
    constructor
    · intro safe
      right
      have within := safe.reads
      rw [program, each] at within
      intro spot comes
      have insideSpot := comes.inside
      rw [span_length] at insideSpot
      have loads := (within_passAt insideSpot).mp (within spot comes.reaches)
      refine ⟨loads, ?_⟩
      intro written overflows
      have value := comes.reaches.value_eq due_passAt due_start ((value_passAt insideSpot loads).trans overflows)
      obtain ⟨outcome, result, defined, _⟩ := safe.writes
      rw [program, value] at result
      exact defined written (Option.some.inj result).symm
    · intro either
      have stays := either.resolve_left short
      have reads : (writeStrAt build off size len).Within memory len := by
        rw [program, each]
        intro spot reaches
        have comes := stays.comes reaches
        have insideSpot := comes.inside
        rw [span_length] at insideSpot
        exact (within_passAt insideSpot).mpr (stays spot comes).1
      refine ⟨reads, ?_, fun other agree => reads.value_eq agree⟩
      obtain ⟨spot, outcome, reaches, ends, value⟩ := @exists_result _ _ memory _ (passAt build len (size - off)) _ _ due_passAt _
        due_start
      have comes := stays.comes reaches
      have insideSpot := comes.inside
      have ended := ends
      rw [value_passAt (by simpa [span_length] using insideSpot) (stays spot comes).1] at ended
      have defined : ∀ written, outcome ≠ .overflow written := by
        intro written same
        rw [same] at ended
        exact (stays spot comes).2 written ended
      have room := room_passOf insideSpot ended defined
      exact ⟨outcome, by rw [program, value], defined, by omega⟩

theorem utf8Len_lt (byte : UInt8) : utf8Len byte < 7 := lt_succ_of_le (utf8Len_le byte).2

theorem defined_of_small (small : str.length + 7 < 2 ^ 31) (inside : spot.Inside str.length available)
    (loads : LoadsInside build str spot) (written : Bytes) :
    passOf build str available spot ≠ .inr (.overflow written) := by
  have position := inside.position
  intro overflows
  rw [passOf] at overflows
  cases mode : spot.b with
  | none =>
    simp only [mode, blockOf, nextBlock, copyOf] at overflows
    split at overflows
    next block =>
      have inBlock := loads mode block.1
      have all := build.loads_of_clean block.2
      rw [if_neg (by omega)] at overflows
      cases overflows
    · split at overflows
      · split at overflows
        · cases overflows
        · cases overflows
      · cases overflows
  | some b =>
    simp only [mode, characterOf] at overflows
    split at overflows
    · cases overflows
    next byte rest here =>
      have left := congrArg List.length here
      rw [length_drop, length_cons] at left
      have reach := utf8Len_lt byte
      have used := (nextStep_shape byte rest).used.2
      rw [if_neg (by omega), putStep] at overflows
      split at overflows
      · cases overflows
      · rw [if_neg (by omega)] at overflows
        cases overflows

theorem stays_iff (small : str.length + 7 < 2 ^ 31) :
    StaysInside build str available ↔ ∀ spot, Comes build str available spot → LoadsInside build str spot := by
  constructor
  · exact fun stays spot comes => (stays spot comes).1
  · exact fun loads spot comes => ⟨loads spot comes, defined_of_small small comes.inside (loads spot comes)⟩

theorem short_safe : MemorySafe sse2Build (fun index => index.toUInt8) 0 64 8 := by
  apply (writeStr_safe_iff sse2Build _ 8 (by decide)).mpr
  right
  rw [stays_iff (by rw [span_length]; decide)]
  -- there is no whole vector
  intro spot _ _ before
  rw [span_length] at before
  have none : vlen sse2Build.lanes.width 8 = 0 := by decide
  omega

def quoteAndWide : Bytes := Ascii.quote :: 0xc3 :: 0xa9 :: List.replicate 29 (Ascii.letter 'a')

theorem vector_loads_behind : ¬ ∀ (memory : Nat → UInt8) (off size len : Nat), off ≤ size →
    MemorySafe sse2Build memory off size len := by
  intro claimed
  have safe := claimed (fun index => quoteAndWide.getD index 0) 0 64 32 (by decide)
  have read : 32 ∈ (writeStrAt sse2Build 0 64 32).reads fun index => quoteAndWide.getD index 0 := by decide +kernel
  exact absurd (safe.reads 32 read) (by decide)

end FluentBit.Json
