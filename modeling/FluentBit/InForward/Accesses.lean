import FluentBit.InForward.Connection

/-! The elements of the array of a message, and of the map of its options, that `fw_prot_process`
accesses. -/

set_option autoImplicit false

namespace FluentBit.InForward

open List Nat
open Msgpack (Object)

structure Access where
  index : Nat
  size : Nat

def Access.Inside (access : Access) : Prop := access.index < access.size

def isKey (key : Bytes) : Object → Bool
  | .str text => text == key
  | _ => false

def entriesUntil (stops : Object → Bool) (entries : List (Object × Object)) : List Access :=
  (List.range (min (entries.findIdx (fun entry => stops entry.1) + 1) entries.length)).map (⟨·, entries.length⟩)

/-- The accesses of `get_options_chunk` and `get_options_metadata`. -/
def optionAccesses (key : Bytes) (root : List Object) (expected : Nat) : List Access :=
  match root[expected]? with
  | none => []
  | some (.map entries) => ⟨expected, root.length⟩ :: entriesUntil (isKey key) entries
  | some _ => [⟨expected, root.length⟩]

def valueAccesses (key : Bytes) (root : List Object) (expected : Nat) : List Access :=
  match root[expected]? with
  | some (.map entries) =>
    match entries.findIdx? fun entry => isKey key entry.1 with
    | some index => [⟨expected, root.length⟩, ⟨index, entries.length⟩]
    | none => []
  | _ => []

/-- The accesses of `is_gzip_compressed` and `get_chunk_event_type`, where every key has to be a text. -/
def scanAccesses (key : Bytes) : Object → List Access
  | .map entries => entriesUntil (fun object => isKey key object || !isStr object) entries
  | _ => []

def chunkKey : Bytes := [0x63, 0x68, 0x75, 0x6e, 0x6b]

def metadataKey : Bytes := [0x6d, 0x65, 0x74, 0x61, 0x64, 0x61, 0x74, 0x61]

def compressedKey : Bytes := [0x63, 0x6f, 0x6d, 0x70, 0x72, 0x65, 0x73, 0x73, 0x65, 0x64]

def signalKey : Bytes := [0x66, 0x6c, 0x75, 0x65, 0x6e, 0x74, 0x5f, 0x73, 0x69, 0x67, 0x6e, 0x61, 0x6c]

def forwardAccesses (root : List Object) : List Access :=
  optionAccesses chunkKey root 2 ++ if getOptionsChunk root 2 = none then [] else valueAccesses chunkKey root 2

def messageAccesses (root : List Object) (map : Object) : List Access :=
  ⟨2, root.length⟩ ::
    if !Event.isMap map then []
    else optionAccesses chunkKey root 3 ++
      if getOptionsChunk root 3 = none then []
      else optionAccesses metadataKey root 3 ++
        if getOptionsMetadata root 3 = none then []
        else valueAccesses chunkKey root 3 ++ valueAccesses metadataKey root 3

/-- The event type is not read where the data cannot be inflated, and the value of the chunk is read
for an ack. -/
def packedAccesses (nullText containOptions : Bool) (root : List Object) (entry options : Object) : List Access :=
  optionAccesses chunkKey root 2 ++
    if getOptionsChunk root 2 = none ∨ hasData nullText entry = false then []
    else ⟨2, root.length⟩ :: scanAccesses compressedKey options ++
      if isGzipCompressed options = none then []
      else (if containOptions then ⟨2, root.length⟩ :: scanAccesses signalKey options else []) ++
        valueAccesses chunkKey root 2

/-- The accesses for a message; `beyond` is read behind the end of its array. -/
def accesses (beyond : Object) (nullText containOptions : Bool) : Object → List Access
  | .array (tag :: entry :: more) =>
    let root := tag :: entry :: more
    ⟨0, root.length⟩ ::
      match tag with
      | .str _ =>
        ⟨1, root.length⟩ ::
          match entry with
          | .array _ => forwardAccesses root
          | .positive _ | .ext _ _ => messageAccesses root (root[2]?.getD beyond)
          | .str _ | .bin _ => packedAccesses nullText containOptions root entry (root[2]?.getD beyond)
          | _ => []
      | _ => []
  | _ => []

/-- A message of two elements, in one of the modes that do not have an array of entries, and with data. -/
def TooShort (nullText : Bool) : Object → Prop
  | .array [.str _, .positive _] | .array [.str _, .ext _ _] => True
  | .array [.str _, .str data] => hasData nullText (.str data) = true
  | .array [.str _, .bin _] => True
  | _ => False

variable {access : Access} {key : Bytes} {root : List Object}

private theorem entriesUntil_inside {stops : Object → Bool} {entries : List (Object × Object)}
    (accessed : access ∈ entriesUntil stops entries) : access.Inside := by
  obtain ⟨index, near, rfl⟩ := mem_map.mp accessed
  exact (lt_min_iff.mp (mem_range.mp near)).2

variable {expected : Nat} {options : Object}

private theorem optionAccesses_inside (accessed : access ∈ optionAccesses key root expected) : access.Inside := by
  unfold optionAccesses at accessed
  cases found : root[expected]? with
  | none => simp [found] at accessed
  | some options =>
    have near : expected < root.length := (List.getElem?_eq_some_iff.mp found).1
    rw [found] at accessed
    split at accessed
    · cases accessed
    · obtain rfl | later := mem_cons.mp accessed
      · exact near
      · exact entriesUntil_inside later
    · rw [mem_singleton.mp accessed]
      exact near

private theorem valueAccesses_inside (accessed : access ∈ valueAccesses key root expected) : access.Inside := by
  unfold valueAccesses at accessed
  split at accessed
  · rename_i entries found
    split at accessed
    · rename_i index place
      obtain rfl | later := mem_cons.mp accessed
      · exact (List.getElem?_eq_some_iff.mp found).1
      · rw [mem_singleton.mp later]
        exact (List.findIdx?_eq_some_iff_findIdx_eq.mp place).1
    · cases accessed
  · cases accessed

private theorem scanAccesses_inside (accessed : access ∈ scanAccesses key options) : access.Inside := by
  unfold scanAccesses at accessed
  split at accessed
  · exact entriesUntil_inside accessed
  · cases accessed

private theorem forwardAccesses_inside (accessed : access ∈ forwardAccesses root) : access.Inside := by
  simp only [forwardAccesses, mem_append, mem_ite_nil_left] at accessed
  obtain first | ⟨-, later⟩ := accessed
  · exact optionAccesses_inside first
  · exact valueAccesses_inside later

private theorem messageAccesses_inside {map : Object} (long : 2 < root.length)
    (accessed : access ∈ messageAccesses root map) :
    access.Inside := by
  simp only [messageAccesses, mem_cons, mem_append, mem_ite_nil_left] at accessed
  obtain rfl | ⟨-, chunk | ⟨-, metadata | ⟨-, value | value⟩⟩⟩ := accessed
  · exact long
  · exact optionAccesses_inside chunk
  · exact optionAccesses_inside metadata
  · exact valueAccesses_inside value
  · exact valueAccesses_inside value

private theorem packedAccesses_inside {nullText containOptions : Bool} {entry : Object}
    (long : hasData nullText entry = true → 2 < root.length)
    (accessed : access ∈ packedAccesses nullText containOptions root entry options) : access.Inside := by
  simp only [packedAccesses, mem_cons, mem_append, cons_append, mem_ite_nil_left, mem_ite_nil_right, not_or,
    Bool.not_eq_false] at accessed
  obtain chunk | ⟨⟨-, data⟩, rfl | scan | ⟨-, ⟨-, rfl | scan⟩ | value⟩⟩ := accessed
  · exact optionAccesses_inside chunk
  · exact long data
  · exact scanAccesses_inside scan
  · exact long data
  · exact scanAccesses_inside scan
  · exact valueAccesses_inside value

/-- No access is behind the end of an array or a map, if and only if the message is long enough for its
mode. -/
theorem accesses_inside_iff (beyond : Object) (nullText containOptions : Bool) (root : Object) :
    (∀ access ∈ accesses beyond nullText containOptions root, access.Inside) ↔ ¬ TooShort nullText root := by
  constructor
  · intro inside short
    have outside := inside ⟨2, 2⟩
    unfold TooShort at short
    split at short
    · exact Nat.lt_irrefl 2 (outside (by simp [accesses, messageAccesses]))
    · exact Nat.lt_irrefl 2 (outside (by simp [accesses, messageAccesses]))
    · exact Nat.lt_irrefl 2 (outside (by simp [accesses, packedAccesses, getOptionsChunk, getOptions, short]))
    · exact Nat.lt_irrefl 2 (outside (by simp [accesses, packedAccesses, getOptionsChunk, getOptions, hasData]))
    · exact short
  · intro long access accessed
    unfold accesses at accessed
    split at accessed
    · rename_i tag entry more
      have third : more ≠ [] → 2 < (tag :: entry :: more).length := by
        intro longer
        have positive := length_pos_iff.mpr longer
        simp only [length_cons]
        omega
      obtain rfl | accessed := mem_cons.mp accessed
      · exact succ_pos _
      · split at accessed
        · obtain rfl | accessed := mem_cons.mp accessed
          · exact succ_lt_succ (succ_pos _)
          · split at accessed
            · exact forwardAccesses_inside accessed
            · exact messageAccesses_inside (third (by rintro rfl; exact long trivial)) accessed
            · exact messageAccesses_inside (third (by rintro rfl; exact long trivial)) accessed
            · exact packedAccesses_inside (fun data => third (by rintro rfl; exact long data)) accessed
            · exact packedAccesses_inside (fun _ => third (by rintro rfl; exact long trivial)) accessed
            · cases accessed
        · cases accessed
    · cases accessed

/-- The message `["a", h'']`. -/
theorem accesses_packed_outside :
    ¬ ∀ access ∈ accesses .nil false false (.array [.str [0x61], .bin []]), access.Inside := by
  intro inside
  exact Nat.lt_irrefl 2 (inside ⟨2, 2⟩ (by simp [accesses, packedAccesses, getOptionsChunk, getOptions, hasData]))

end FluentBit.InForward
