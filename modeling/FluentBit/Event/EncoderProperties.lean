import FluentBit.Event.Encoder
import FluentBit.Foundation.Pruning

/-! What the open scopes of a field stand for. An abstract field is a stack of containers that are
being filled; the bytes in the buffer are those of the values, each scope with a header whose size
is not known yet. -/

set_option autoImplicit false

namespace FluentBit.Event

open List Option
open Msgpack (Object Container Encodes store)

/-! ### Containers that are being filled -/

def pairUp {α : Type} : List α → Option (List (α × α))
  | [] => some []
  | [_] => none
  | key :: value :: rest => (pairUp rest).map fun pairs => (key, value) :: pairs

structure Open where
  kind : Container
  items : List Object

/-- The container as an object. Its members are counted by an `int`, and those of a map come in
pairs. -/
def Open.close (container : Open) : Option Object :=
  if container.items.length < 2 ^ 31 then
    match container.kind with
    | .array => some (.array container.items)
    | .map => (pairUp container.items).map Object.map
  else none

def Open.add (container : Open) (object : Object) : Open := { container with items := container.items ++ [object] }

def commit : List Open → Option (List Open)
  | top :: parent :: rest => top.close.map fun object => parent.add object :: rest
  | _ => none

def finish : List Open → Option Object
  | [] => none
  | top :: outers => do outers.foldlM (fun object outer => (outer.add object).close) (← top.close)

structure Draft where
  timestamp : Time := { sec := 0, nsec := 0 }
  metadata : List Open := [⟨.map, []⟩]
  body : List Open := [⟨.map, []⟩]

def Draft.onField (target : Target) (change : List Open → Option (List Open)) (draft : Draft) : Option Draft :=
  match target with
  | .metadata => (change draft.metadata).map fun metadata => { draft with metadata }
  | .body => (change draft.body).map fun body => { draft with body }

def addTop (object : Object) : List Open → Option (List Open)
  | [] => none
  | top :: outers => some (top.add object :: outers)

def Draft.call (draft : Draft) : Call → Option Draft
  | .setTimestamp timestamp => some { draft with timestamp }
  | .beginMap target => draft.onField target fun stack => some (⟨.map, []⟩ :: stack)
  | .beginArray target => draft.onField target fun stack => some (⟨.array, []⟩ :: stack)
  | .commitMap target | .commitArray target => draft.onField target commit
  | .append target value => draft.onField target (addTop value.object)

def draftOf (calls : List Call) : Option Draft := calls.foldlM Draft.call {}

/-! ### Layers -/

structure Layer where
  kind : Container
  members : List (Bytes × Object)

def Layer.toOpen (layer : Layer) : Open := { kind := layer.kind, items := layer.members.map Prod.snd }

def Layer.add (layer : Layer) (member : Bytes × Object) : Layer := { layer with members := layer.members ++ [member] }

theorem Layer.toOpen_add (layer : Layer) (member : Bytes × Object) :
    (layer.add member).toOpen = layer.toOpen.add member.2 := by
  simp [Layer.add, Layer.toOpen, Open.add]

def firstByte : Container → UInt8
  | .map => 0xdf
  | .array => 0xdd

def header (kind : Container) (size : Nat) : Bytes := firstByte kind :: store 4 size

theorem length_header (kind : Container) (size : Nat) : (header kind size).length = 5 := by simp [header]

theorem headerInit_eq (kind : Container) : DynamicField.headerInit kind = header kind 65536 := by
  cases kind <;> rfl

def Layer.inner (layer : Layer) : Bytes := layer.members.flatMap Prod.fst

def Layer.size (layer : Layer) : Nat :=
  match layer.kind with
  | .map => layer.members.length / 2
  | .array => layer.members.length

def Layer.bytes (layer : Layer) : Bytes := header layer.kind layer.size ++ layer.inner

variable {α : Type} {list : List α}

theorem pairUp_map {β : Type} (change : α → β) {pairs : List (β × β)} (paired : pairUp (list.map change) = some pairs) :
    ∃ before, pairUp list = some before ∧ pairs = before.map fun pair => (change pair.1, change pair.2) := by
  fun_induction pairUp list generalizing pairs with
  | case1 =>
    cases paired
    exact ⟨[], rfl, rfl⟩
  | case2 => cases paired
  | case3 key value rest ih =>
    obtain ⟨later, found, rfl⟩ := map_eq_some_iff.mp paired
    obtain ⟨before, known, rfl⟩ := ih found
    exact ⟨(key, value) :: before, by rw [known]; rfl, rfl⟩

theorem pairUp_spec {pairs : List (α × α)} (paired : pairUp list = some pairs) :
    list = (pairs.flatMap fun pair => [pair.1, pair.2]) ∧ list.length / 2 = pairs.length := by
  fun_induction pairUp list generalizing pairs with
  | case1 =>
    cases paired
    exact ⟨rfl, by simp⟩
  | case2 => cases paired
  | case3 key value rest ih =>
    obtain ⟨later, found, rfl⟩ := map_eq_some_iff.mp paired
    obtain ⟨same, half⟩ := ih found
    constructor
    · rw [same]
      rfl
    · simp only [length_cons]
      omega

variable {object : Object}

theorem Layer.encodes {layer : Layer} (each : ∀ member ∈ layer.members, Encodes member.1 member.2)
    (closed : layer.toOpen.close = some object) : Encodes layer.bytes object := by
  unfold Open.close at closed
  split at closed
  next few =>
    rw [Layer.toOpen, length_map] at few
    cases kind : layer.kind with
    | array =>
      simp only [Layer.toOpen, kind, Option.some.injEq] at closed
      subst closed
      have encoded := @Msgpack.encodes_wide_array layer.members (by omega) each
      simpa [Layer.bytes, Layer.size, Layer.inner, header, firstByte, kind] using encoded
    | map =>
      simp only [Layer.toOpen, kind] at closed
      obtain ⟨pairs, paired, rfl⟩ := map_eq_some_iff.mp closed
      obtain ⟨before, found, rfl⟩ := pairUp_map Prod.snd paired
      obtain ⟨same, half⟩ := pairUp_spec found
      have inside : ∀ pair ∈ before, pair.1 ∈ layer.members ∧ pair.2 ∈ layer.members := by
        intro pair member
        rw [same]
        exact ⟨mem_flatMap.mpr ⟨pair, member, by simp⟩, mem_flatMap.mpr ⟨pair, member, by simp⟩⟩
      have encoded := @Msgpack.encodes_wide_map before (by omega) (fun pair member => each _ (inside pair member).1)
        (fun pair member => each _ (inside pair member).2)
      have bytes : layer.inner = before.flatMap fun pair => pair.1.1 ++ pair.2.1 := by
        rw [Layer.inner, same, flatMap_assoc]
        simp
      simpa [Layer.bytes, Layer.size, bytes, header, firstByte, kind, half] using encoded
  · cases closed

def SBuffer.Holds (buffer : SBuffer) (bytes : Bytes) : Prop :=
  buffer.contents = bytes ∧ buffer.size = bytes.length

section

variable {buffer : SBuffer} {bytes more : Bytes}

theorem SBuffer.Holds.split (holds : buffer.Holds bytes) : ∃ rest, buffer.data = bytes ++ rest := by
  obtain ⟨contents, _⟩ := holds
  rw [← contents]
  exact ⟨buffer.data.drop buffer.size, (take_append_drop _ _).symm⟩

theorem SBuffer.holds_of_split {rest : Bytes} (data : buffer.data = bytes ++ rest) (size : buffer.size = bytes.length) :
    buffer.Holds bytes := by
  refine ⟨?_, size⟩
  rw [SBuffer.contents, data, size, take_left]

theorem SBuffer.Holds.write (holds : buffer.Holds bytes) (more : Bytes) : (buffer.write more).Holds (bytes ++ more) := by
  obtain ⟨contents, size⟩ := holds
  apply @SBuffer.holds_of_split _ _ (buffer.data.drop (buffer.size + more.length))
  · rw [SBuffer.write, patch, ← SBuffer.contents, contents]
  · rw [SBuffer.write, length_append, size]

theorem SBuffer.holds_empty : SBuffer.Holds {} [] := ⟨rfl, rfl⟩

theorem headerEnd_eq {scope : Scope} {before inner rest : Bytes} (offset : scope.offset = before.length) (old : Nat) :
    DynamicField.headerEnd scope (before ++ header scope.type old ++ inner ++ rest) =
      before ++ header scope.type (match scope.type with | .map => scope.entries / 2 | .array => scope.entries) ++
        inner ++ rest := by
  have first : (before ++ header scope.type old ++ inner ++ rest)[scope.offset]? = some (firstByte scope.type) := by
    rw [offset, append_assoc, append_assoc, List.getElem?_append_right (Nat.le_refl _), Nat.sub_self]
    rfl
  have patched : ∀ size, patch (before ++ header scope.type old ++ inner ++ rest) (scope.offset + 1) (store 4 size) =
      before ++ header scope.type size ++ inner ++ rest := by
    intro size
    have front : before ++ header scope.type old ++ inner ++ rest =
        (before ++ [firstByte scope.type]) ++ (store 4 old ++ (inner ++ rest)) := by simp [header]
    have length : (before ++ [firstByte scope.type]).length = scope.offset + 1 := by simp [offset]
    rw [patch, front, Msgpack.length_store, take_left' length, ← drop_drop, drop_left' length,
      drop_left' (Msgpack.length_store 4 old)]
    simp [header]
  cases kind : scope.type with
  | map =>
    rw [kind] at first patched
    simp only [DynamicField.headerEnd, kind, flbMpSetMapHeaderSize, setHeaderSize, first, patched]
    rfl
  | array =>
    rw [kind] at first patched
    simp only [DynamicField.headerEnd, kind, flbMpSetArrayHeaderSize, setHeaderSize, first, patched]
    rfl

end

/-! ### Fields -/

def layout : List Layer → Bytes
  | [] => []
  | layer :: outers => layout outers ++ header layer.kind 65536 ++ layer.inner

def scopesOf (inside : Nat) : List Layer → List Scope
  | [] => []
  | layer :: outers =>
    { type := layer.kind, offset := (layout outers).length, entries := layer.members.length + inside } ::
      scopesOf 1 outers

structure Represents (field : DynamicField) (layers : List Layer) : Prop where
  holds : field.buffer.Holds (layout layers)
  scopes : field.scopes = scopesOf 0 layers
  each : ∀ layer ∈ layers, ∀ member ∈ layer.members, Encodes member.1 member.2

section

variable {field : DynamicField} {layer parent : Layer} {layers outers : List Layer}

theorem Represents.enter (represents : Represents field layers) (kind : Container) :
    Represents (field.scopeEnter kind) (⟨kind, []⟩ :: layers) := by
  have size : field.append.buffer.size = (layout layers).length := by
    unfold DynamicField.append
    split <;> exact represents.holds.2
  have holds : field.append.buffer.Holds (layout layers) := by
    unfold DynamicField.append
    split <;> exact represents.holds
  refine ⟨?_, ?_, ?_⟩
  · have written := holds.write (DynamicField.headerInit kind)
    rw [headerInit_eq] at written
    simpa [DynamicField.scopeEnter, layout, Layer.inner, headerInit_eq] using written
  · have counted : field.append.scopes = scopesOf 1 layers := by
      unfold DynamicField.append
      rw [represents.scopes]
      cases layers with
      | nil => rw [scopesOf, represents.scopes]; rfl
      | cons layer layers => rfl
    simp [DynamicField.scopeEnter, scopesOf, size, counted]
  · intro layer inside
    rcases mem_cons.mp inside with rfl | inside
    · intro member impossible
      cases impossible
    · exact represents.each layer inside

theorem Represents.append (represents : Represents field (layer :: outers)) {bytes : Bytes}
    (encodes : Encodes bytes object) : Represents (field.appendValue bytes) (layer.add (bytes, object) :: outers) := by
  have scopes := represents.scopes
  rw [scopesOf] at scopes
  refine ⟨?_, ?_, ?_⟩
  · have written := represents.holds.write bytes
    simp only [DynamicField.appendValue, DynamicField.append, scopes]
    simpa [layout, Layer.add, Layer.inner] using written
  · simp [DynamicField.appendValue, DynamicField.append, scopes, scopesOf, Layer.add]
  · intro other inside
    rcases mem_cons.mp inside with rfl | inside
    · intro member among
      rcases mem_append.mp among with old | new
      · exact represents.each layer mem_cons_self member old
      · rw [mem_singleton.mp new]
        exact encodes
    · exact represents.each other (mem_cons_of_mem _ inside)

variable {buffer : SBuffer}

theorem leave_holds (holds : buffer.Holds (layout (layer :: outers))) : (DynamicField.leave true
      { type := layer.kind, offset := (layout outers).length, entries := layer.members.length } buffer).Holds
      (layout outers ++ layer.bytes) := by
  obtain ⟨rest, data⟩ := holds.split
  apply @SBuffer.holds_of_split _ _ rest
  · have ended := @headerEnd_eq
      { type := layer.kind, offset := (layout outers).length, entries := layer.members.length } (layout outers)
      layer.inner rest rfl 65536
    simp only [DynamicField.leave, if_true, data, layout]
    rw [ended]
    simp [Layer.bytes, Layer.size]
  · have size := holds.2
    simp only [layout, length_append, length_header] at size
    simp only [DynamicField.leave, if_true, size, Layer.bytes, length_append, length_header]
    omega

theorem Represents.leave (represents : Represents field (layer :: parent :: outers))
    (closed : layer.toOpen.close = some object) :
    Represents (field.scopeLeave true) (parent.add (layer.bytes, object) :: outers) := by
  have scopes := represents.scopes
  rw [scopesOf] at scopes
  have encodes := Layer.encodes (represents.each layer mem_cons_self) closed
  refine ⟨?_, ?_, ?_⟩
  · have left := leave_holds represents.holds
    simp only [DynamicField.scopeLeave, scopes]
    simpa [layout, Layer.add, Layer.inner] using left
  · simp [DynamicField.scopeLeave, scopes, scopesOf, Layer.add]
  · intro other inside
    rcases mem_cons.mp inside with rfl | inside
    · intro member among
      rcases mem_append.mp among with old | new
      · exact represents.each parent (by simp) member old
      · rw [mem_singleton.mp new]
        exact encodes
    · exact represents.each other (by simp [inside])

theorem finish_cons {top outer : Open} {rest : List Open} (finished : finish (top :: outer :: rest) = some object) :
    ∃ inner, top.close = some inner ∧ finish (outer.add inner :: rest) = some object := by
  cases closed : top.close with
  | none => simp [finish, closed] at finished
  | some inner =>
    refine ⟨inner, rfl, ?_⟩
    simpa [finish, closed] using finished

/-- When all scopes are closed, the buffer holds the finished object. -/
theorem Represents.flushScopes (represents : Represents field (layer :: outers))
    (finished : finish ((layer :: outers).map Layer.toOpen) = some object) :
    ∃ bytes, Encodes bytes object ∧ (field.flushScopes true).buffer.Holds bytes := by
  induction outers generalizing field layer with
  | nil =>
    have closed : layer.toOpen.close = some object := by simpa [finish] using finished
    have left := leave_holds represents.holds
    refine ⟨layer.bytes, Layer.encodes (represents.each layer mem_cons_self) closed, ?_⟩
    simpa [DynamicField.flushScopes, represents.scopes, scopesOf, layout] using left
  | cons parent outers ih =>
    obtain ⟨inner, closed, finished⟩ := finish_cons finished
    have again : (field.scopeLeave true).flushScopes true = field.flushScopes true := by
      simp [DynamicField.scopeLeave, DynamicField.flushScopes, represents.scopes, scopesOf]
    rw [← again]
    apply ih (represents.leave closed)
    rw [map_cons, Layer.toOpen_add]
    exact finished

theorem size_rollback (inside : Nat) (cleared : layers = [] → buffer.size = 0) :
    ((scopesOf inside layers).foldl (fun buffer scope => DynamicField.leave false scope buffer) buffer).size = 0 := by
  induction layers generalizing inside buffer with
  | nil => exact cleared rfl
  | cons layer outers ih =>
    rw [scopesOf, foldl_cons]
    apply ih
    rintro rfl
    rfl

theorem represents_reset (scopes : field.scopes = scopesOf 0 layers) : Represents field.reset [] := by
  have empty : field.reset.buffer.size = 0 := by
    simp only [DynamicField.reset, DynamicField.flushScopes, scopes]
    exact size_rollback 0 fun _ => rfl
  refine ⟨⟨?_, empty⟩, rfl, by simp⟩
  rw [SBuffer.contents, empty]
  rfl

end

/-! ### Records -/

structure Drafted (context : Encoder) (draft : Draft) : Prop where
  timestamp : context.timestamp = draft.timestamp
  metadata : ∃ layers, Represents context.metadata layers ∧ layers.map Layer.toOpen = draft.metadata
  body : ∃ layers, Represents context.body layers ∧ layers.map Layer.toOpen = draft.body
  root : Represents context.root [] ∧ context.root.data = none

structure Idle (context : Encoder) : Prop where
  metadata : Represents context.metadata []
  body : Represents context.body []
  root : Represents context.root [] ∧ context.root.data = none

section

variable {context : Encoder} {draft next : Draft}

theorem represents_empty : Represents {} [] := ⟨SBuffer.holds_empty, rfl, by simp⟩

theorem idle_init (format : Format) : Idle { format } := ⟨represents_empty, represents_empty, represents_empty, rfl⟩

theorem Idle.beginRecord (idle : Idle context) : Drafted context.beginRecord {} where
  timestamp := rfl
  metadata := ⟨_, (represents_reset idle.metadata.scopes).enter .map, rfl⟩
  body := ⟨_, (represents_reset idle.body.scopes).enter .map, rfl⟩
  root := ⟨represents_reset idle.root.1.scopes, rfl⟩

theorem Drafted.resetRecord (drafted : Drafted context draft) : Idle context.resetRecord := by
  obtain ⟨_, metadata, _⟩ := drafted.metadata
  obtain ⟨_, body, _⟩ := drafted.body
  exact ⟨represents_reset metadata.scopes, represents_reset body.scopes, represents_reset drafted.root.1.scopes, rfl⟩

def Carries (concrete : DynamicField → DynamicField) (abstract : List Open → Option (List Open)) : Prop :=
  ∀ field layers stack, Represents field layers → abstract (layers.map Layer.toOpen) = some stack →
    ∃ changed, Represents (concrete field) changed ∧ changed.map Layer.toOpen = stack

theorem carries_enter (kind : Container) : Carries (·.scopeEnter kind) fun stack => some (⟨kind, []⟩ :: stack) := by
  intro field layers stack represents entered
  cases entered
  exact ⟨_, represents.enter kind, rfl⟩

theorem carries_append (value : Value) : Carries (·.appendValue value.bytes) (addTop value.object) := by
  intro field layers stack represents added
  cases layers with
  | nil => cases added
  | cons layer outers =>
    cases added
    exact ⟨_, represents.append value.encodes, by rw [map_cons, Layer.toOpen_add]⟩

theorem carries_leave : Carries (·.scopeLeave true) commit := by
  intro field layers stack represents committed
  cases layers with
  | nil => cases committed
  | cons layer outers =>
    cases outers with
    | nil => cases committed
    | cons parent outers =>
      obtain ⟨object, closed, rfl⟩ := map_eq_some_iff.mp committed
      exact ⟨_, represents.leave closed, by rw [map_cons, Layer.toOpen_add]⟩

section

variable (drafted : Drafted context draft)
include drafted

theorem Drafted.onField {concrete : DynamicField → DynamicField} {abstract : List Open → Option (List Open)}
    (carries : Carries concrete abstract) {target : Target} (changed : draft.onField target abstract = some next) :
    Drafted (context.onField target concrete) next := by
  obtain ⟨metadata, representsMetadata, sameMetadata⟩ := drafted.metadata
  obtain ⟨body, representsBody, sameBody⟩ := drafted.body
  cases target with
  | metadata =>
    obtain ⟨stack, applied, rfl⟩ := map_eq_some_iff.mp changed
    rw [← sameMetadata] at applied
    exact ⟨drafted.timestamp, carries _ _ _ representsMetadata applied, ⟨_, representsBody, sameBody⟩, drafted.root⟩
  | body =>
    obtain ⟨stack, applied, rfl⟩ := map_eq_some_iff.mp changed
    rw [← sameBody] at applied
    exact ⟨drafted.timestamp, ⟨_, representsMetadata, sameMetadata⟩, carries _ _ _ representsBody applied, drafted.root⟩

theorem Drafted.call {call : Call} (called : draft.call call = some next) : Drafted (context.call call) next := by
  cases call with
  | setTimestamp timestamp =>
    cases called
    exact ⟨rfl, drafted.metadata, drafted.body, drafted.root⟩
  | beginMap target => exact drafted.onField (carries_enter .map) called
  | beginArray target => exact drafted.onField (carries_enter .array) called
  | commitMap target | commitArray target => exact drafted.onField carries_leave called
  | append target value => exact drafted.onField (carries_append value) called

theorem Drafted.calls {calls : List Call} (called : calls.foldlM Draft.call draft = some next) :
    Drafted (calls.foldl Encoder.call context) next := by
  induction calls generalizing context draft with
  | nil =>
    cases called
    exact drafted
  | cons call calls ih =>
    rw [foldlM_cons] at called
    obtain ⟨middle, first, later⟩ := bind_eq_some_iff.mp called
    exact ih (drafted.call first) later

end

end

end FluentBit.Event
