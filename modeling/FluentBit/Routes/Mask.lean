import Mathlib.Data.BitVec
import Mathlib.Tactic.NormNum

/-! The bit field of `flb_routes_mask.c`: four 64-bit words, one bit for each
output instance a chunk is routed to. Values outside the field only produce a
warning. -/

set_option autoImplicit false

namespace FluentBit

def routesMaskElements : Nat := 4

def routesMaskElementBits : Nat := 64

def routesMaskMaxValue : Nat := routesMaskElements * routesMaskElementBits

structure RoutesMask where
  words : List (BitVec 64)
  length : words.length = routesMaskElements

namespace RoutesMask

/-- The zeroed field that `calloc` and `memset` leave behind. -/
def cleared : RoutesMask :=
  ⟨List.replicate routesMaskElements 0, List.length_replicate⟩

def rejects (value : Int) : Bool :=
  decide (value < 0) || decide (value > routesMaskMaxValue)

def wordIndex (value : Int) : Nat := value.toNat / routesMaskElementBits

def wordBit (value : Int) : BitVec 64 := BitVec.twoPow 64 (value.toNat % routesMaskElementBits)

def modifyWord (mask : RoutesMask) (value : Int) (change : BitVec 64 → BitVec 64) : RoutesMask :=
  ⟨mask.words.modify (wordIndex value) change, by rw [List.length_modify, mask.length]⟩

def setBit (mask : RoutesMask) (value : Int) : RoutesMask :=
  if rejects value then mask else mask.modifyWord value (· ||| wordBit value)

def clearBit (mask : RoutesMask) (value : Int) : RoutesMask :=
  if rejects value then mask else mask.modifyWord value (· &&& ~~~ wordBit value)

def getBit (mask : RoutesMask) (value : Int) : Bool :=
  if rejects value then false
  else match mask.words[wordIndex value]? with
    | none => false
    | some word => (word &&& wordBit value) != 0

def isEmpty (mask : RoutesMask) : Bool := mask.words.all (· == 0)

end RoutesMask

end FluentBit

/-! Laws of the routes mask. They hold for every integer value, also for those
the accessors reject. -/

namespace FluentBit.RoutesMask

open List Nat Option BitVec

theorem getBit_eq (mask : RoutesMask) (value : Int) :
    mask.getBit value = (!rejects value && (match mask.words[wordIndex value]? with
      | none => false
      | some word => word.getLsbD (value.toNat % 64))) := by
  unfold getBit
  cases rejects value with
  | true => simp
  | false =>
    cases found : mask.words[wordIndex value]? with
    | none => simp
    | some word =>
      simp only [Bool.false_eq_true, if_false, Bool.not_false, Bool.true_and]
      have small : value.toNat % 64 < 64 := mod_lt _ (by decide)
      cases bit : word.getLsbD (value.toNat % 64) with
      | true =>
        have nonzero : word &&& wordBit value ≠ 0 := by
          intro zero
          have same := congrArg (fun w => w.getLsbD (value.toNat % 64)) zero
          simp [wordBit, routesMaskElementBits, bit] at same
          omega
        simpa using nonzero
      | false =>
        have zero : word &&& wordBit value = 0 := by
          apply eq_of_getLsbD_eq
          intro position bounded
          simp only [wordBit, routesMaskElementBits, getLsbD_and, getLsbD_twoPow]
          by_cases same : value.toNat % 64 = position
          · subst same; simp [bit]
          · simp [same]
        simp [zero]

variable {mask : RoutesMask}

theorem getBit_of_rejects {value : Int} (rejected : rejects value = true) : mask.getBit value = false := by
  simp [getBit, rejected]

theorem value_eq_of_position {left right : Int}
    (leftAccepted : rejects left = false) (rightAccepted : rejects right = false)
    (word : wordIndex left = wordIndex right) (bit : left.toNat % 64 = right.toNat % 64) : left = right := by
  simp only [rejects, Bool.or_eq_false_iff, decide_eq_false_iff_not, not_lt] at leftAccepted rightAccepted
  simp only [wordIndex, routesMaskElementBits] at word
  omega

@[simp] theorem getBit_clearBit (cleared value : Int) :
    (mask.clearBit cleared).getBit value = (mask.getBit value && decide (cleared ≠ value)) := by
  unfold clearBit
  cases clearedRejected : rejects cleared with
  | true =>
    by_cases same : cleared = value
    · subst same; simp [getBit_of_rejects clearedRejected]
    · simp [same]
  | false =>
    simp only [Bool.false_eq_true, if_false, getBit_eq, modifyWord]
    cases valueRejected : rejects value with
    | true => simp
    | false =>
      simp only [Bool.not_false, Bool.true_and, List.getElem?_modify]
      have small : value.toNat % 64 < 64 := mod_lt _ (by decide)
      cases found : mask.words[wordIndex value]? with
      | none => simp
      | some word =>
        by_cases index : wordIndex cleared = wordIndex value
        · simp only [index, if_true, Option.map_eq_map, map_some]
          by_cases bit : cleared.toNat % 64 = value.toNat % 64
          · have same := value_eq_of_position clearedRejected valueRejected index bit
            subst same
            simp [wordBit, routesMaskElementBits]
          · have different : cleared ≠ value := fun same => bit (by rw [same])
            simp [wordBit, routesMaskElementBits, Ne.symm bit, different, small]
        · have different : cleared ≠ value := fun same => index (by rw [same])
          simp [index, different]

@[simp] theorem getBit_setBit (added value : Int) : (mask.setBit added).getBit value =
      (mask.getBit value || (decide (added = value) && !rejects value &&
        decide (wordIndex value < routesMaskElements))) := by
  unfold setBit
  cases addedRejected : rejects added with
  | true =>
    by_cases same : added = value
    · subst same; simp [addedRejected]
    · simp [same]
  | false =>
    simp only [Bool.false_eq_true, if_false, getBit_eq, modifyWord]
    cases valueRejected : rejects value with
    | true => simp
    | false =>
      simp only [Bool.not_false, Bool.true_and, Bool.and_true, List.getElem?_modify]
      have small : value.toNat % 64 < 64 := mod_lt _ (by decide)
      cases found : mask.words[wordIndex value]? with
      | none =>
        have outside : ¬ wordIndex value < routesMaskElements := by
          rw [← mask.length]
          simpa using found
        simp [outside]
      | some word =>
        have inside : wordIndex value < routesMaskElements := by
          rw [← mask.length]
          exact (List.getElem?_eq_some_iff.mp found).1
        by_cases index : wordIndex added = wordIndex value
        · simp only [index, if_true, Option.map_eq_map, map_some]
          by_cases bit : added.toNat % 64 = value.toNat % 64
          · have same := value_eq_of_position addedRejected valueRejected index bit
            subst same
            simp [wordBit, routesMaskElementBits, inside, small]
          · have different : added ≠ value := fun same => bit (by rw [same])
            simp [wordBit, routesMaskElementBits, bit, different]
        · have different : added ≠ value := fun same => index (by rw [same])
          simp [index, different]

@[simp] theorem getBit_cleared (value : Int) : cleared.getBit value = false := by
  rw [getBit_eq]
  cases found : cleared.words[wordIndex value]? with
  | none => simp
  | some word =>
    have zero : word = 0 := by
      have member := mem_of_getElem? found
      exact eq_of_mem_replicate member
    simp [zero]

theorem getBit_of_isEmpty (empty : mask.isEmpty = true) (value : Int) : mask.getBit value = false := by
  rw [getBit_eq]
  cases found : mask.words[wordIndex value]? with
  | none => simp
  | some word =>
    have zero : word = 0 := by
      have all := all_eq_true.mp empty word (mem_of_getElem? found)
      simpa using all
    simp [zero]

end FluentBit.RoutesMask

/-! The routes mask among the words of a chunk: where its accessors read and write, and what a sequence of
calls makes of the mask. The guard of the accessors lets the first value behind the mask pass. -/

namespace FluentBit.RoutesMask

open List

abbrev Memory := Nat → BitVec 64

namespace Memory

def accessed (value : Int) : Option Nat := if rejects value then none else some (wordIndex value)

def setBit (memory : Memory) (value : Int) : Memory :=
  if rejects value then memory
  else Function.update memory (wordIndex value) (memory (wordIndex value) ||| wordBit value)

def clearBit (memory : Memory) (value : Int) : Memory :=
  if rejects value then memory
  else Function.update memory (wordIndex value) (memory (wordIndex value) &&& ~~~ wordBit value)

def getBit (memory : Memory) (value : Int) : Bool :=
  if rejects value then false else (memory (wordIndex value) &&& wordBit value) != 0

def isEmpty (memory : Memory) : Bool := (List.range routesMaskElements).all fun index => memory index == 0

def mask (memory : Memory) : RoutesMask :=
  ⟨(List.range routesMaskElements).map memory, by rw [length_map, length_range]⟩

end Memory

inductive Call where
  | set (value : Int)
  | clear (value : Int)
deriving DecidableEq

def Call.value : Call → Int
  | .set value => value
  | .clear value => value

def Call.apply (memory : Memory) : Call → Memory
  | .set value => memory.setBit value
  | .clear value => memory.clearBit value

def run (memory : Memory) (calls : List Call) : Memory := calls.foldl Call.apply memory

def Representable (value : Int) : Prop := 0 ≤ value ∧ value < routesMaskMaxValue

def lastCall (calls : List Call) (value : Int) : Option Call := calls.reverse.find? (·.value = value)

structure Keeps (memory : Memory) (calls : List Call) (value : Int) : Prop where
  inside : ∀ call ∈ calls, ∀ index ∈ Memory.accessed call.value, index < routesMaskElements
  asked : ∀ index ∈ Memory.accessed value, index < routesMaskElements
  answer : (run memory calls).getBit value = true ↔ Representable value ∧ lastCall calls value = some (.set value)
  empty : (run memory calls).isEmpty = true ↔ ∀ other, Representable other → (run memory calls).getBit other = false
  ignored : ∀ call ∈ calls, ¬ Representable call.value → ∀ memory, call.apply memory = memory

theorem rejects_iff (value : Int) : rejects value = true ↔ value < 0 ∨ value > routesMaskMaxValue := by
  simp [rejects]

variable {value : Int}

theorem rejects_of_not_representable (outside : ¬ Representable value) (other : value ≠ routesMaskMaxValue) :
    rejects value = true := by
  rw [rejects_iff]
  simp only [Representable] at outside
  omega

theorem accessed_inside :
    (∀ index ∈ Memory.accessed value, index < routesMaskElements) ↔ value ≠ routesMaskMaxValue := by
  constructor
  · rintro inside rfl
    exact absurd (inside 4 rfl) (by decide)
  · intro other index access
    cases rejected : rejects value with
    | true => simp [Memory.accessed, rejected] at access
    | false =>
      simp only [Memory.accessed, rejected, Bool.false_eq_true, if_false, Option.mem_some_iff] at access
      have guarded : ¬ (value < 0 ∨ value > routesMaskMaxValue) := by
        rw [← rejects_iff, rejected]
        decide
      simp only [wordIndex, routesMaskMaxValue, routesMaskElements, routesMaskElementBits] at *
      omega

theorem representable_iff : Representable value ↔ rejects value = false ∧ wordIndex value < routesMaskElements := by
  rw [← Bool.not_eq_true, rejects_iff]
  simp only [Representable, wordIndex, routesMaskMaxValue, routesMaskElements, routesMaskElementBits]
  omega

theorem Memory.getBit_mask {memory : Memory} (other : value ≠ routesMaskMaxValue) :
    memory.getBit value = memory.mask.getBit value := by
  unfold Memory.getBit RoutesMask.getBit
  cases rejected : rejects value with
  | true => rfl
  | false =>
    have inside : wordIndex value < routesMaskElements := by
      apply accessed_inside.mpr other
      simp [Memory.accessed, rejected]
    simp [Memory.mask, List.getElem?_range inside]

variable (memory : Memory)

theorem Memory.mask_update (index : Nat) (change : BitVec 64 → BitVec 64) :
    (Memory.mask (Function.update memory index (change (memory index)))).words = memory.mask.words.modify index change := by
  apply ext_getElem?
  intro position
  simp only [Memory.mask, List.getElem?_map, List.getElem?_modify]
  by_cases inside : position < routesMaskElements
  · rw [List.getElem?_range inside]
    by_cases same : index = position
    · subst same
      simp
    · simp [same, Function.update_of_ne (Ne.symm same)]
  · rw [List.getElem?_eq_none (by simpa using inside)]
    rfl

theorem words_ext {left right : RoutesMask} (same : left.words = right.words) : left = right := by
  cases left
  cases right
  cases same
  rfl

theorem Memory.mask_setBit : (memory.setBit value).mask = memory.mask.setBit value := by
  unfold Memory.setBit RoutesMask.setBit
  split
  · rfl
  · exact words_ext (Memory.mask_update memory (wordIndex value) (· ||| wordBit value))

theorem Memory.mask_clearBit : (memory.clearBit value).mask = memory.mask.clearBit value := by
  unfold Memory.clearBit RoutesMask.clearBit
  split
  · rfl
  · exact words_ext (Memory.mask_update memory (wordIndex value) (· &&& ~~~ wordBit value))

/-! ### Sequences of calls -/

theorem run_append (calls : List Call) (call : Call) :
    run memory (calls ++ [call]) = call.apply (run memory calls) := by
  rw [run, foldl_append]
  rfl

theorem lastCall_append (calls : List Call) (call : Call) :
    lastCall (calls ++ [call]) value = if call.value = value then some call else lastCall calls value := by
  rw [lastCall, reverse_append, reverse_singleton, singleton_append, List.find?_cons]
  by_cases same : call.value = value
  · simp [same]
  · simp [same, lastCall]

theorem getBit_run {memory : Memory} (cleared : memory.mask = RoutesMask.cleared) (calls : List Call) (value : Int) :
    (run memory calls).mask.getBit value = true ↔ Representable value ∧ lastCall calls value = some (.set value) := by
  induction calls using List.reverseRecOn with
  | nil => simp [run, cleared, lastCall]
  | append_singleton calls call ih =>
    rw [run_append, lastCall_append]
    cases call with
    | set added =>
      rw [Call.apply, Memory.mask_setBit, getBit_setBit, Call.value, Bool.or_eq_true, ih]
      by_cases same : added = value
      · subst same
        simp only [decide_true, Bool.true_and, Bool.and_eq_true, Bool.not_eq_true', decide_eq_true_eq, if_true, and_true,
          ← representable_iff]
        exact ⟨fun either => either.elim And.left id, Or.inr⟩
      · simp [same]
    | clear removed =>
      rw [Call.apply, Memory.mask_clearBit, getBit_clearBit, Call.value, Bool.and_eq_true, ih]
      by_cases same : removed = value
      · simp [same]
      · simp [same]

theorem isEmpty_of_getBit {mask : RoutesMask} (unset : ∀ value, Representable value → mask.getBit value = false) :
    mask.isEmpty = true := by
  rw [isEmpty, all_eq_true]
  intro word member
  obtain ⟨index, found⟩ := List.getElem?_of_mem member
  have inside : index < routesMaskElements := by
    rw [← mask.length]
    exact (List.getElem?_eq_some_iff.mp found).1
  simp only [routesMaskElements] at inside
  have zero : word = 0 := by
    apply BitVec.eq_of_getLsbD_eq
    intro position bounded
    have representable : Representable ((index * 64 + position : Nat) : Int) := by
      simp only [Representable, routesMaskMaxValue, routesMaskElements, routesMaskElementBits]
      omega
    have bit := unset _ representable
    have place : wordIndex ((index * 64 + position : Nat) : Int) = index := by
      simp only [wordIndex, routesMaskElementBits, Int.toNat_natCast]
      omega
    have offset : ((index * 64 + position : Nat) : Int).toNat % 64 = position := by omega
    rw [getBit_eq, (representable_iff.mp representable).1, place, found] at bit
    simp only [Bool.not_false, Bool.true_and, offset] at bit
    rw [bit]
    exact BitVec.getLsbD_zero.symm
  simp [zero]

theorem Memory.isEmpty_iff : memory.isEmpty = true ↔ ∀ value, Representable value → memory.getBit value = false := by
  have same : memory.isEmpty = memory.mask.isEmpty := by
    simp only [Memory.isEmpty, RoutesMask.isEmpty, Memory.mask, all_map]
    rfl
  have bits (value : Int) (representable : Representable value) : memory.getBit value = memory.mask.getBit value := by
    apply Memory.getBit_mask
    intro last
    exact absurd representable.2 (by rw [last]; exact lt_irrefl _)
  rw [same]
  constructor
  · intro empty value representable
    rw [bits value representable, getBit_of_isEmpty empty]
  · intro unset
    apply isEmpty_of_getBit
    intro value representable
    rw [← bits value representable, unset value representable]

/-- On a cleared mask the calls and a question keep to the mask, and the answers follow the last calls, exactly
where neither a call nor the question is for the first value behind the mask. -/
theorem keeps_iff (memory : Memory) (cleared : memory.mask = RoutesMask.cleared) (calls : List Call) (value : Int) :
    Keeps memory calls value ↔ (∀ call ∈ calls, call.value ≠ routesMaskMaxValue) ∧ value ≠ routesMaskMaxValue := by
  constructor
  · intro keeps
    exact ⟨fun call member => accessed_inside.mp (keeps.inside call member), accessed_inside.mp keeps.asked⟩
  · rintro ⟨others, other⟩
    refine ⟨?_, accessed_inside.mpr other, ?_, Memory.isEmpty_iff _, ?_⟩
    · exact fun call member => accessed_inside.mpr (others call member)
    · rw [Memory.getBit_mask other, getBit_run cleared]
    · intro call member outside memory
      have rejected := rejects_of_not_representable outside (others call member)
      cases call with
      | set added | clear removed => exact if_pos rejected

theorem keeps_sample : Keeps (fun _ => 0) [.set 35, .set 68, .clear 35, .set (-1), .set 255, .set 257] 68 := by
  apply (keeps_iff (fun _ => 0) rfl _ _).mpr
  decide

/-- The word behind the mask is written for the value 256. -/
theorem word_behind_written :
    Call.apply (fun _ => 0) (.set 256) routesMaskElements = 1 ∧ ¬ Keeps (fun _ => 0) [.set 256] 0 := by
  constructor
  · decide
  · intro keeps
    exact absurd (keeps.inside (.set 256) (mem_singleton_self _) 4 rfl) (by decide)

end FluentBit.RoutesMask
