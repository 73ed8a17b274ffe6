import FluentBit.Storage.Chunk

/-! Looking up chunks after a change of one of them. -/

set_option autoImplicit false

namespace FluentBit

namespace Storage

variable {storage : Storage} {c : ChunkRef} {ic : InputChunk}

theorem chunk?_some (found : storage.chunk? c = some ic) : ic ∈ storage.chunks ∧ ic.ref = c := by
  refine ⟨List.mem_of_find?_eq_some found, ?_⟩
  simpa using List.find?_some found

theorem chunk?_setChunk (change : InputChunk → InputChunk) (keeps : ∀ ic, (change ic).ref = ic.ref)
    (storage : Storage) (c : ChunkRef) : (storage.setChunk c change).chunk? c = (storage.chunk? c).map change := by
  simp only [chunk?, setChunk, Tally.replace]
  induction storage.chunks with
  | nil => rfl
  | cons ic rest ih =>
    by_cases same : ic.ref = c
    · simp [same, keeps]
    · simp [same, ih]

end Storage

theorem chunk?_setCio {storage : Storage} {c : ChunkRef} {ic : InputChunk} (change : CioChunk → CioChunk)
    (found : storage.chunk? c = some ic) :
    (setCio c change storage).chunk? c = some { ic with chunk := change ic.chunk } := by
  unfold setCio
  rw [Storage.chunk?_setChunk (fun ic => { ic with chunk := change ic.chunk }) (fun _ => rfl), found]
  rfl

structure Routing where
  ins : InputId
  eventType : EventType
  routesMask : RoutesMask

namespace InputChunk

def routing (ic : InputChunk) : Routing := ⟨ic.ins, ic.eventType, ic.routesMask⟩

end InputChunk

namespace Storage

def routings (storage : Storage) : List Routing := storage.chunks.map (·.routing)

theorem routings_setChunk (change : InputChunk → InputChunk) (keeps : ∀ ic, (change ic).routing = ic.routing)
    (storage : Storage) (c : ChunkRef) : (storage.setChunk c change).routings = storage.routings :=
  Tally.map_replace_of_fixed keeps

end Storage

section Routings

variable (storage : Storage) (c : ChunkRef)

theorem routings_setCio (change : CioChunk → CioChunk) : (setCio c change storage).routings = storage.routings :=
  Storage.routings_setChunk (fun ic => { ic with chunk := change ic.chunk }) (fun _ => rfl) storage c

private theorem routings_inputChunkUpdateOutputInstances (config : Config) (size : SizeT) :
    (inputChunkUpdateOutputInstances config c size storage).routings = storage.routings := by
  unfold inputChunkUpdateOutputInstances
  cases storage.chunk? c with
  | none => rfl
  | some ic => exact Tally.map_replace_of_fixed fun _ => rfl

private theorem routings_unlinkChunk :
    (unlinkChunk c storage).routings.Sublist storage.routings := List.filter_sublist.map _

theorem chunks_htDelPtr (i : InputId) (type : EventType) (tag : Tag) :
    (htDelPtr i type tag c storage).chunks = storage.chunks := by
  unfold htDelPtr
  split <;> rfl

theorem chunks_inputChunkSetLimits (config : Config) (i : InputId) :
    (inputChunkSetLimits config i storage).chunks = storage.chunks := by
  unfold inputChunkSetLimits
  simp only
  split <;> split <;> rfl

end Routings

section Engines

variable {env : Env} {config : Config} (engine : Engine) (c : ChunkRef)

theorem routings_inputChunkDestroy (del : Bool) :
    (inputChunkDestroy env config c del engine).storage.routings.Sublist engine.storage.routings := by
  unfold inputChunkDestroy
  cases engine.storage.chunk? c with
  | none => exact .refl _
  | some ic =>
    simp only [Engine.withStorage, Engine.tock]
    refine (routings_unlinkChunk _ c).trans ?_
    have same : ∀ storage : Storage, (uncountChunk config ic storage).routings = storage.routings := fun _ => rfl
    split
    · simp only [Storage.routings, chunks_htDelPtr]
      exact .refl _
    · rw [same]

private theorem routings_inputChunkSetUp :
    (inputChunkSetUp env c engine).2.storage.routings = engine.storage.routings := by
  unfold inputChunkSetUp
  cases engine.storage.chunk? c with
  | none => rfl
  | some ic =>
    simp only
    split
    · rfl
    · split
      · exact routings_setCio engine.storage c CioChunk.setUp
      · rfl

theorem routings_inputChunkFlush :
    (inputChunkFlush env config c engine).2.storage.routings = engine.storage.routings := by
  unfold inputChunkFlush
  cases engine.storage.chunk? c with
  | none => rfl
  | some ic =>
    have setUp := @routings_inputChunkSetUp env engine c
    rcases raised : inputChunkSetUp env c engine with ⟨_ | _, up⟩
    · rw [raised] at setUp
      exact setUp
    · rw [raised] at setUp
      simp only at setUp ⊢
      have locked := routings_setCio up.storage c CioChunk.lock
      have busy := Storage.routings_setChunk (fun ic => { ic with busy := true }) (fun _ => rfl)
        (setCio c CioChunk.lock up.storage) c
      have same := busy.trans (locked.trans setUp)
      split
      · split
        · exact same
        · simp only
          split
          · exact (routings_inputChunkUpdateOutputInstances _ _ _ _).trans same
          · exact same
      · exact locked.trans setUp

end Engines

section Create

variable {env : Env} {config : Config} {i : InputId} {type : EventType} {tag : Tag} {engine after : Engine}

theorem chunks_linkChunk (ic : InputChunk) (storage : Storage) :
    (linkChunk tag ic storage).chunks = storage.chunks ++ [ic] := by
  unfold linkChunk htAdd
  split <;> rfl

theorem inputChunkCreate_none (refused : inputChunkCreate env config i type tag engine = (none, after)) :
    after = engine.tock.tock := by
  unfold inputChunkCreate at refused
  simp only at refused
  split at refused
  · cases refused
    rfl
  · cases refused

/-- A chunk that is created is empty and linked. -/
theorem inputChunkCreate_some {c : ChunkRef}
    (created : inputChunkCreate env config i type tag engine = (some c, after)) :
    ∃ cio : CioChunk, c = engine.nextRef + 1 ∧ cio.dataSize = 0 ∧ cio.file = decide (config.storageType i = .fs) ∧
      after = { engine.tock.tock with
        storage := linkChunk tag (createdChunk config c i type tag cio) engine.storage
        nextRef := engine.nextRef + 2 } := by
  unfold inputChunkCreate at created
  simp only at created
  split at created
  · cases created
  · next openedUp _ =>
    obtain ⟨ref, rfl⟩ := Prod.mk.inj created
    cases ref
    exact ⟨_, rfl, rfl, rfl, rfl⟩

theorem inputChunkMap_cases (cio : CioChunk) (engine : Engine) :
    (∃ left, inputChunkMap env config i type cio engine = (none, left, engine.tock)) ∨
      ∃ records left, 0 ≤ inputChunkGetRealSize (mappedChunk config engine.nextRef i type records left) ∧
        inputChunkMap env config i type cio engine = (some engine.nextRef, left, { engine.tock with
          storage := linkMapped config (mappedChunk config engine.nextRef i type records left) engine.storage
          nextRef := engine.nextRef + 1 }) := by
  unfold inputChunkMap
  rcases readBacklogChunk env type cio engine with ⟨_ | records, left⟩
  · exact .inl ⟨left, rfl⟩
  · simp only
    split
    · exact .inl ⟨left, rfl⟩
    · next nonnegative => exact .inr ⟨records, left, Int.not_lt.mp nonnegative, rfl⟩

end Create

end FluentBit
