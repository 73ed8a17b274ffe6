import FluentBit.Event.EncoderProperties

/-! Scopes that are rolled back, after `src/flb_log_event_encoder_dynamic_field.c`. The scope of a map
or an array counts as an entry of the scope around it as soon as it is opened. -/

set_option autoImplicit false

namespace FluentBit.Event

open List
open Msgpack (Object Container store)

namespace DynamicField

def rollbackMap (field : DynamicField) : DynamicField := field.scopeLeave false

def rollbackArray (field : DynamicField) : DynamicField := field.scopeLeave true

def rollback : Container → DynamicField → DynamicField
  | .map => rollbackMap
  | .array => rollbackArray

inductive Request where
  | append (value : Value)
  | begin (type : Container)
  | commit (type : Container)
  | rollback (type : Container)
  | flush
  | reset

def request (field : DynamicField) : Request → DynamicField
  | .append value => field.appendValue value.bytes
  | .begin type => field.scopeEnter type
  | .commit _ => field.scopeLeave true
  | .rollback type => field.rollback type
  | .flush => field.flush
  | .reset => field.reset

def requests (field : DynamicField) (calls : List Request) : DynamicField := calls.foldl request field

theorem requests_cons (field : DynamicField) (call : Request) (calls : List Request) :
    field.requests (call :: calls) = (field.request call).requests calls := rfl

theorem requests_append (field : DynamicField) (first second : List Request) :
    field.requests (first ++ second) = (field.requests first).requests second := foldl_append ..

inductive Inside : List Request → Prop where
  | nil : Inside []
  | append (value : Value) {calls : List Request} : Inside calls → Inside (.append value :: calls)
  | scope (type : Container) {inner calls : List Request} {ended : Request}
      (leaves : ∃ other, ended = .commit other ∨ ended = .rollback other) :
      Inside inner → Inside calls → Inside (.begin type :: (inner ++ ended :: calls))

def Same (before after : DynamicField) : Prop :=
  after.scopes = before.scopes ∧ after.buffer.contents = before.buffer.contents

def flushed (field : DynamicField) : Bytes := field.flush.buffer.contents

/-! ### Open scopes have their headers -/

def Stacked : Nat → List Scope → Prop
  | _, [] => True
  | size, scope :: outers => scope.offset + 5 ≤ size ∧ Stacked scope.offset outers

structure Laid (buffer : SBuffer) (scopes : List Scope) : Prop where
  size : buffer.size ≤ buffer.data.length
  stacked : Stacked buffer.size scopes
  headed : ∀ scope ∈ scopes, buffer.data[scope.offset]? = some (firstByte scope.type)

variable {buffer : SBuffer} {scope : Scope} {scopes outers : List Scope} {field : DynamicField}

theorem Stacked.mono {small large : Nat} (stacked : Stacked small scopes) (le : small ≤ large) : Stacked large scopes := by
  cases scopes with
  | nil => trivial
  | cons scope outers => exact ⟨stacked.1.trans le, stacked.2⟩

variable {size offset : Nat} {data bytes : Bytes} {other : DynamicField}

theorem Stacked.inside (stacked : Stacked size scopes) : ∀ scope ∈ scopes, scope.offset + 5 ≤ size := by
  induction scopes generalizing size with
  | nil => simp
  | cons first outers ih =>
    intro scope member
    cases mem_cons.mp member with
    | inl here => exact here ▸ stacked.1
    | inr below => exact (ih stacked.2 scope below).trans ((Nat.le_add_right _ _).trans stacked.1)

theorem getElem?_patch {place : Nat} (apart : place < offset ∨ offset + bytes.length ≤ place)
    (inside : offset + bytes.length ≤ data.length) : (patch data offset bytes)[place]? = data[place]? := by
  have length : (data.take offset).length = offset := length_take_of_le (by omega)
  cases apart with
  | inl before =>
    rw [patch, append_assoc, List.getElem?_append_left (by rwa [length]), List.getElem?_take_of_lt before]
  | inr behind =>
    rw [patch, List.getElem?_append_right (by rw [length_append, length]; exact behind), List.getElem?_drop,
      length_append, length]
    congr 1
    omega

theorem length_patch (inside : offset + bytes.length ≤ data.length) :
    (patch data offset bytes).length = data.length := by
  rw [patch, length_append, length_append, length_take, length_drop]
  omega

def count (scope : Scope) : Nat :=
  match scope.type with
  | .map => scope.entries / 2
  | .array => scope.entries

theorem headerEnd_patch (headed : data[scope.offset]? = some (firstByte scope.type)) :
    headerEnd scope data = patch data (scope.offset + 1) (store 4 (count scope)) := by
  cases type : scope.type with
  | map =>
    rw [type] at headed
    simp only [headerEnd, count, type, flbMpSetMapHeaderSize, setHeaderSize, headed]
    rfl
  | array =>
    rw [type] at headed
    simp only [headerEnd, count, type, flbMpSetArrayHeaderSize, setHeaderSize, headed]
    rfl

theorem Laid.write (laid : Laid buffer scopes) (bytes : Bytes) : Laid (buffer.write bytes) scopes where
  size := by
    have size := laid.size
    simp only [SBuffer.write, patch, length_append, length_take, length_drop]
    omega
  stacked := laid.stacked.mono (Nat.le_add_right _ _)
  headed := by
    intro scope member
    have inside := laid.stacked.inside scope member
    have size := laid.size
    rw [← laid.headed scope member, SBuffer.write, patch, append_assoc,
      List.getElem?_append_left (by rw [length_take]; omega), List.getElem?_take_of_lt (by omega)]

theorem Laid.enter (laid : Laid buffer scopes) (type : Container) :
    Laid (buffer.write (headerInit type)) ({ type, offset := buffer.size, entries := 0 } :: scopes) where
  size := (laid.write _).size
  stacked := ⟨by simp [SBuffer.write, headerInit_eq, length_header], laid.stacked⟩
  headed := by
    intro scope member
    cases mem_cons.mp member with
    | inl here =>
      have length : (buffer.data.take buffer.size).length = buffer.size := length_take_of_le laid.size
      subst here
      rw [SBuffer.write, patch, append_assoc, List.getElem?_append_right (by rw [length]), length,
        Nat.sub_self, headerInit_eq]
      rfl
    | inr below => exact (laid.write _).headed scope below

theorem Laid.commit (laid : Laid buffer (scope :: outers)) : (leave true scope buffer).size = buffer.size ∧
      (leave true scope buffer).data = patch buffer.data (scope.offset + 1) (store 4 (count scope)) ∧
      Laid (leave true scope buffer) outers := by
  have patched := headerEnd_patch (laid.headed scope (mem_cons_self ..))
  have inside : scope.offset + 1 + (store 4 (count scope)).length ≤ buffer.data.length := by
    rw [Msgpack.length_store]
    exact laid.stacked.1.trans laid.size
  refine ⟨rfl, patched, ?_, ?_, ?_⟩
  · simp only [leave, if_true, patched, length_patch inside]
    exact laid.size
  · exact laid.stacked.2.mono ((Nat.le_add_right _ _).trans laid.stacked.1)
  · intro outer member
    have before := laid.stacked.2.inside outer member
    simp only [leave, if_true, patched, getElem?_patch (Or.inl (show outer.offset < scope.offset + 1 by omega)) inside]
    exact laid.headed outer (mem_cons_of_mem _ member)

theorem Laid.drop (laid : Laid buffer (scope :: outers)) : Laid (leave false scope buffer) outers where
  size := ((Nat.le_add_right _ _).trans laid.stacked.1).trans laid.size
  stacked := laid.stacked.2
  headed outer member := laid.headed outer (mem_cons_of_mem _ member)

theorem Laid.flush (laid : Laid buffer scopes) :
    (scopes.foldl (fun buffer scope => leave true scope buffer) buffer).size = buffer.size ∧
      Laid (scopes.foldl (fun buffer scope => leave true scope buffer) buffer) [] ∧
      ∀ place, (∀ scope ∈ scopes, scope.offset + 5 ≤ place) →
        (scopes.foldl (fun buffer scope => leave true scope buffer) buffer).data[place]? = buffer.data[place]? := by
  induction scopes generalizing buffer with
  | nil => exact ⟨rfl, laid, fun _ _ => rfl⟩
  | cons scope outers ih =>
    obtain ⟨size, data, kept⟩ := laid.commit
    obtain ⟨sizes, empty, same⟩ := ih kept
    refine ⟨sizes.trans size, empty, ?_⟩
    intro place behind
    have inside : scope.offset + 1 + (store 4 (count scope)).length ≤ buffer.data.length := by
      rw [Msgpack.length_store]
      exact laid.stacked.1.trans laid.size
    have past := behind scope (mem_cons_self ..)
    rw [foldl_cons, same place fun outer member => behind outer (mem_cons_of_mem _ member), data]
    exact getElem?_patch (Or.inr (by rw [Msgpack.length_store]; omega)) inside

theorem Laid.flushed_count (laid : Laid field.buffer (scope :: outers)) (open_ : field.scopes = scope :: outers)
    {index : Nat} (short : index < 4) :
    (flushed field)[scope.offset + 1 + index]? = (store 4 (count scope))[index]? := by
  obtain ⟨size, data, kept⟩ := laid.commit
  obtain ⟨sizes, _, same⟩ := kept.flush
  have outer := laid.stacked.2.inside
  have inside := laid.stacked.1
  have filled := laid.size
  have behind : ∀ outer ∈ outers, outer.offset + 5 ≤ scope.offset + 1 + index := by
    intro other member
    have le := outer other member
    omega
  have front : (field.buffer.data.take (scope.offset + 1)).length = scope.offset + 1 := length_take_of_le (by omega)
  simp only [flushed, DynamicField.flush, flushScopes, SBuffer.contents, open_, foldl_cons, sizes, size]
  rw [List.getElem?_take_of_lt (by omega), same _ behind, data, patch, append_assoc,
    List.getElem?_append_right (by omega), front, Nat.add_sub_cancel_left,
    List.getElem?_append_left (by rwa [Msgpack.length_store])]

theorem laid_append (laid : Laid field.buffer field.scopes) : Laid field.append.buffer field.append.scopes := by
  cases scopes : field.scopes with
  | nil =>
    rw [scopes] at laid
    simpa [append, scopes] using laid
  | cons scope outers =>
    rw [scopes] at laid
    simp only [append, scopes]
    refine ⟨laid.size, laid.stacked, ?_⟩
    intro other member
    cases mem_cons.mp member with
    | inl here => exact here ▸ laid.headed scope (mem_cons_self ..)
    | inr below => exact laid.headed other (mem_cons_of_mem _ below)

theorem buffer_append : field.append.buffer = field.buffer := by
  unfold append
  split <;> rfl

theorem laid_scopeLeave (laid : Laid field.buffer field.scopes) (committed : Bool) :
    Laid (field.scopeLeave committed).buffer (field.scopeLeave committed).scopes := by
  cases scopes : field.scopes with
  | nil => simpa [scopeLeave, scopes] using laid
  | cons scope outers =>
    rw [scopes] at laid
    simp only [scopeLeave, scopes]
    cases committed with
    | true => exact laid.commit.2.2
    | false => exact laid.drop

theorem rolled_size (below : ∀ scope ∈ scopes, scope.offset ≤ data.length) :
    ∀ buffer : SBuffer, buffer.data = data → buffer.size ≤ data.length →
      Laid (scopes.foldl (fun buffer scope => leave false scope buffer) buffer) [] := by
  induction scopes with
  | nil =>
    intro buffer same size
    exact ⟨same ▸ size, trivial, by simp⟩
  | cons scope outers ih =>
    intro buffer same _
    exact ih (fun outer member => below outer (mem_cons_of_mem _ member)) (leave false scope buffer) same
      (below scope (mem_cons_self ..))

theorem laid_request (laid : Laid field.buffer field.scopes) (call : Request) :
    Laid (field.request call).buffer (field.request call).scopes := by
  cases call with
  | append value => exact (laid_append laid).write _
  | begin type => exact (laid_append laid).enter type
  | commit type => exact laid_scopeLeave laid true
  | rollback type =>
    cases type with
    | map => exact laid_scopeLeave laid false
    | array => exact laid_scopeLeave laid true
  | flush => exact laid.flush.2.1
  | reset =>
    refine rolled_size ?_ field.buffer.clear rfl (Nat.zero_le _)
    intro scope member
    exact (Nat.le_add_right _ _).trans ((laid.stacked.inside scope member).trans laid.size)

theorem laid_requests (laid : Laid field.buffer field.scopes) (calls : List Request) :
    Laid (field.requests calls).buffer (field.requests calls).scopes := by
  induction calls generalizing field with
  | nil => exact laid
  | cons call calls ih => exact ih (laid_request laid call)

/-! ### What is left of a scope -/

structure Within (scope : Scope) (outers : List Scope) (size : Nat) (field : DynamicField) : Prop where
  scopes : ∃ entries, field.scopes = { scope with entries } :: outers
  size : size ≤ field.buffer.size

theorem Within.left {inner : Scope} {size : Nat} (within : Within inner outers size field) (le : size ≤ inner.offset)
    {ended : Request} (leaves : ∃ other, ended = .commit other ∨ ended = .rollback other) :
    (field.request ended).scopes = outers ∧ size ≤ (field.request ended).buffer.size := by
  obtain ⟨⟨entries, scopes⟩, grown⟩ := within
  have committed : (field.scopeLeave true).scopes = outers ∧ size ≤ (field.scopeLeave true).buffer.size := by
    simp only [scopeLeave, scopes, leave, if_true]
    exact ⟨trivial, grown⟩
  obtain ⟨other, rfl | rfl⟩ := leaves
  · exact committed
  · cases other with
    | array => exact committed
    | map =>
      simp only [request, rollback, rollbackMap, scopeLeave, scopes, leave, Bool.false_eq_true, if_false]
      exact ⟨trivial, le⟩

theorem within_enter (field : DynamicField) (type : Container) :
    Within { type, offset := field.buffer.size, entries := 0 } field.append.scopes field.buffer.size
      (field.scopeEnter type) where
  scopes := ⟨0, by simp [scopeEnter, buffer_append]⟩
  size := by simp [scopeEnter, SBuffer.write, buffer_append]

theorem within_inner {calls : List Request} (inside : Inside calls) (within : Within scope outers size field) :
    Within scope outers size (field.requests calls) := by
  induction inside generalizing field scope outers size with
  | nil => exact within
  | append value inside ih =>
    obtain ⟨⟨entries, scopes⟩, le⟩ := within
    apply ih
    refine ⟨⟨entries + 1, by simp [request, appendValue, append, scopes]⟩, ?_⟩
    simp only [request, appendValue, SBuffer.write, buffer_append]
    exact le.trans (Nat.le_add_right _ _)
  | @scope type inner calls ended leaves _ _ innerIH ih =>
    obtain ⟨⟨entries, scopes⟩, le⟩ := within
    have filled := innerIH (within_enter field type)
    obtain ⟨parent, kept⟩ := filled.left (Nat.le_refl _) leaves
    rw [requests_cons, requests_append, requests_cons]
    apply ih
    refine ⟨⟨entries + 1, ?_⟩, le.trans kept⟩
    rw [request, parent]
    simp [append, scopes]

theorem store_apart {size other : Nat} (same : ∀ index < 4, (store 4 size)[index]? = (store 4 other)[index]?)
    (next : other = size + 1) : False := by
  have equal : store 4 size = store 4 other := by
    apply ext_getElem?
    intro index
    cases Nat.lt_or_ge index 4 with
    | inl inside => exact same index inside
    | inr behind =>
      rw [List.getElem?_eq_none (by rwa [Msgpack.length_store]), List.getElem?_eq_none (by rwa [Msgpack.length_store])]
  have loaded := congrArg Msgpack.load equal
  rw [Msgpack.load_store, Msgpack.load_store] at loaded
  omega

theorem flushed_apart {entries : Nat} (laid : Laid field.buffer field.scopes)
    (scopes : field.scopes = scope :: outers) (otherLaid : Laid other.buffer other.scopes)
    (otherScopes : other.scopes = { scope with entries } :: outers)
    (next : count { scope with entries } = count scope + 1) : flushed other ≠ flushed field := by
  intro equal
  rw [scopes] at laid
  rw [otherScopes] at otherLaid
  apply @store_apart (count scope) (count { scope with entries })
  · intro index inside
    rw [← laid.flushed_count scopes inside, ← otherLaid.flushed_count otherScopes inside, equal]
  · exact next

def nilValue : Value := .ofObject .nil .nil

theorem laid_reached (earlier : List Request) :
    Laid ((({} : DynamicField).requests earlier).buffer) (({} : DynamicField).requests earlier).scopes := by
  apply laid_requests
  exact ⟨Nat.le_refl 0, trivial, by simp⟩

theorem counted_apart (laid : Laid field.buffer field.scopes) (scopes : field.scopes = scope :: outers)
    (otherLaid : Laid other.buffer other.scopes)
    (otherScopes : other.scopes = { scope with entries := scope.entries + 1 } :: outers) :
    ∃ later, flushed (other.requests later) ≠ flushed (field.requests later) := by
  cases type : scope.type with
  | array => exact ⟨[], flushed_apart laid scopes otherLaid otherScopes (by simp [count, type])⟩
  | map =>
    cases Nat.mod_two_eq_zero_or_one scope.entries with
    | inr odd =>
      refine ⟨[], flushed_apart laid scopes otherLaid otherScopes ?_⟩
      simp only [count, type]
      omega
    | inl even =>
      -- one more value completes a pair on one side only
      have counted : (field.request (.append nilValue)).scopes =
          { scope with entries := scope.entries + 1 } :: outers := by
        simp [request, appendValue, append, scopes]
      have otherCounted : (other.request (.append nilValue)).scopes =
          { scope with entries := scope.entries + 1 + 1 } :: outers := by
        simp [request, appendValue, append, otherScopes]
      refine ⟨[.append nilValue], ?_⟩
      apply flushed_apart (laid_request laid (.append nilValue)) counted
        (laid_request otherLaid (.append nilValue)) otherCounted
      simp only [count, type]
      omega

/-- With a scope around it, no scope is rolled back without a trace: the scope around it has counted it. -/
theorem rollback_not_exact (earlier : List Request) (type : Container) {inner : List Request} (inside : Inside inner)
    (around : (requests {} earlier).scopes ≠ []) :
    ¬ Same (requests {} earlier) ((((requests {} earlier).scopeEnter type).requests inner).rollback type) ∧
      ∃ later, flushed (((((requests {} earlier).scopeEnter type).requests inner).rollback type).requests later) ≠
        flushed ((requests {} earlier).requests later) := by
  have laid := laid_reached earlier
  generalize requests {} earlier = field at laid around ⊢
  have entered : Laid (field.scopeEnter type).buffer (field.scopeEnter type).scopes := laid_request laid (.begin type)
  have rolledLaid : Laid _ _ := laid_request (laid_requests entered inner) (.rollback type)
  have filled := within_inner inside (within_enter field type)
  have left := (filled.left (Nat.le_refl _) ⟨type, Or.inr rfl⟩).1
  obtain ⟨scope, outers, scopes⟩ := exists_cons_of_ne_nil around
  have rolled : ((((field.scopeEnter type).requests inner).rollback type)).scopes =
      { scope with entries := scope.entries + 1 } :: outers := by
    rw [request] at left
    rw [left]
    simp [append, scopes]
  constructor
  · intro same
    have equal := same.1
    rw [rolled, scopes, List.cons.injEq] at equal
    have entries := congrArg Scope.entries equal.1
    exact absurd entries (Nat.succ_ne_self _)
  · exact counted_apart laid scopes rolledLaid rolled

theorem rollback_not_exact_array :
    ¬ Same (requests {} [.begin .array]) ((((requests {} [.begin .array]).scopeEnter .map).requests []).rollback .map) ∧
      ∃ later, flushed (((((requests {} [.begin .array]).scopeEnter .map).requests []).rollback .map).requests later) ≠
        flushed ((requests {} [.begin .array]).requests later) :=
  rollback_not_exact [.begin .array] .map .nil (by simp [requests, request, scopeEnter])

/-- An array gets an entry that is not there for a map that was rolled back, and keeps an array. -/
theorem rolled_back_entries : flushed (requests {} [.begin .array]) = [0xdd, 0, 0, 0, 0] ∧
      flushed (requests {} [.begin .array, .begin .map, .rollback .map]) = [0xdd, 0, 0, 0, 1] ∧
      flushed (requests {} [.begin .array, .begin .array, .rollback .array]) =
        [0xdd, 0, 0, 0, 1, 0xdd, 0, 0, 0, 0] := by
  decide

end DynamicField

end FluentBit.Event
