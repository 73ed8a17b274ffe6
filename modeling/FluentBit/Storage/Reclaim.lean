import FluentBit.Engine.Event
import FluentBit.Storage.ChunkProperties

/-! Releasing space as a sequence of small steps: what can happen to tasks,
chunks and counters while `flb_input_chunk_release_space` and
`memrb_input_chunk_release_space` are at work. -/

set_option autoImplicit false

namespace FluentBit

open List

structure Unconcerned (before after : Engine) : Prop where
  tasks : after = { before with storage := after.storage, tick := after.tick, fault := after.fault }
  chunks : after.storage.chunks = before.storage.chunks
  fsChunksSize : after.storage.fsChunksSize = before.storage.fsChunksSize
  htChunks : after.storage.htChunks = before.storage.htChunks

/-- One step of a function that releases space for outputs in the scope. The
chunk that receives the new data keeps its routes. -/
inductive Reclaim (env : Env) (config : Config) (new : ChunkRef) (scope : OutId → Prop) : Engine → Engine → Prop where
  | elsewhere {engine after} : Unconcerned engine after → Reclaim env config new scope engine after
  | chunkGone {c ic engine} : engine.storage.chunk? c = some ic → ic.task = none →
      Reclaim env config new scope engine (inputChunkDestroy env config c true engine)
  | taskGone {t task engine} : engine.task? t = some task → task.users = 0 →
      Reclaim env config new scope engine (taskDestroy env config t true engine)
  | taskRoute {t o engine} : Reclaim env config new scope engine (taskSetRouteStatus t o .dropped engine)
  | counted {o t engine} : Reclaim env config new scope engine (engine.record (.recordsDropped o t))
  | route {c o ic engine} : scope o → engine.storage.chunk? c = some ic → c ≠ new → ic.routesTo o = true →
      Reclaim env config new scope engine (engine.withStorage (dropRoute c o (inputChunkGetRealSize ic)))

abbrev Reclaims (env : Env) (config : Config) (new : ChunkRef) (scope : OutId → Prop) : Engine → Engine → Prop :=
  Relation.ReflTransGen (Reclaim env config new scope)

variable {env : Env} {config : Config} {new : ChunkRef} {scope : OutId → Prop}

theorem Unconcerned.refl (engine : Engine) : Unconcerned engine engine := ⟨rfl, rfl, rfl, rfl⟩

theorem Unconcerned.trans {first second third : Engine} (left : Unconcerned first second)
    (right : Unconcerned second third) : Unconcerned first third where
  tasks := by rw [right.tasks, left.tasks]
  chunks := right.chunks.trans left.chunks
  fsChunksSize := right.fsChunksSize.trans left.fsChunksSize
  htChunks := right.htChunks.trans left.htChunks

private theorem reclaims_tock (engine : Engine) : Reclaims env config new scope engine engine.tock :=
  .single (.elsewhere ⟨rfl, rfl, rfl, rfl⟩)

private theorem reclaims_fault (engine : Engine) : Reclaims env config new scope engine { engine with fault := true } :=
  .single (.elsewhere ⟨rfl, rfl, rfl, rfl⟩)

section Backlog

private theorem unconcerned_removeFromQueues (target : ChunkRef) (size : SizeT) (queues : List SbOutQueue)
    (storage : Storage) : (removeFromQueues target size queues storage).2.chunks = storage.chunks ∧
      (removeFromQueues target size queues storage).2.fsChunksSize = storage.fsChunksSize ∧
      (removeFromQueues target size queues storage).2.htChunks = storage.htChunks := by
  induction queues generalizing storage with
  | nil => exact ⟨rfl, rfl, rfl⟩
  | cons queue rest ih =>
    have first : (sbRemoveChunkFromSegregatedBacklog target size queue storage).2.chunks = storage.chunks ∧
        (sbRemoveChunkFromSegregatedBacklog target size queue storage).2.fsChunksSize = storage.fsChunksSize ∧
        (sbRemoveChunkFromSegregatedBacklog target size queue storage).2.htChunks = storage.htChunks := by
      unfold sbRemoveChunkFromSegregatedBacklog
      cases queue.chunks.find? (·.chunk = target) with
      | none | some entry => exact ⟨rfl, rfl, rfl⟩
    obtain ⟨chunks, sizes, table⟩ := ih (sbRemoveChunkFromSegregatedBacklog target size queue storage).2
    exact ⟨chunks.trans first.1, sizes.trans first.2.1, table.trans first.2.2⟩

theorem unconcerned_sbRemove (target : ChunkRef) (engine : Engine) :
    Unconcerned engine (sbRemoveChunkFromSegregatedBacklogs env target engine) := by
  obtain ⟨chunks, sizes, table⟩ := unconcerned_removeFromQueues target (cioChunkGetRealSize env target engine)
    engine.storage.backlog.queues engine.storage
  exact ⟨rfl, chunks, sizes, table⟩

private theorem unconcerned_releaseQueueLoop (required : SizeT) (entries : List SbOutChunk) (released : SizeT)
    (engine : Engine) : Unconcerned engine (releaseQueueLoop env required entries released engine).2 := by
  induction entries generalizing released engine with
  | nil => exact .refl _
  | cons entry rest ih =>
    have removed := @unconcerned_sbRemove env entry.chunk engine
    have closed : Unconcerned (sbRemoveChunkFromSegregatedBacklogs env entry.chunk engine)
        ((sbRemoveChunkFromSegregatedBacklogs env entry.chunk engine).withStorage
          (closeBacklogChunk entry.chunk)) := ⟨rfl, rfl, rfl, rfl⟩
    unfold releaseQueueLoop
    simp only
    split
    · exact removed.trans closed
    · exact (removed.trans closed).trans (ih _ _)

private theorem unconcerned_sbReleaseOutputQueueSpace (o : OutId) (required : Int) (engine : Engine) :
    Unconcerned engine (sbReleaseOutputQueueSpace env config o required engine).2 := by
  unfold sbReleaseOutputQueueSpace
  split
  · exact .refl _
  · split
    · exact .refl _
    · exact unconcerned_releaseQueueLoop _ _ _ _

end Backlog

variable {o : OutId}

section Release

variable {t : Option TaskRef} {engine after : Engine} {old : InputChunk}

theorem inputChunkDropTaskRoute_some {dropped : Nat}
    (result : inputChunkDropTaskRoute t o engine = (some dropped, after)) :
    after = engine ∨ ∃ r, after = taskSetRouteStatus r o .dropped engine := by
  unfold inputChunkDropTaskRoute at result
  cases t with
  | none =>
    cases result
    exact .inl rfl
  | some r =>
    simp only at result
    cases found : engine.task? r with
    | none => simp [found] at result
    | some task =>
      simp only [found] at result
      split at result
      · cases result
        exact .inl rfl
      · split at result
        · cases result
          exact .inr ⟨r, rfl⟩
        · cases result

theorem inputChunkDropTaskRoute_none (result : inputChunkDropTaskRoute t o engine = (none, after)) :
    Unconcerned engine after := by
  unfold inputChunkDropTaskRoute at result
  cases t with
  | none => cases result
  | some r =>
    simp only at result
    cases found : engine.task? r with
    | none =>
      simp only [found] at result
      cases result
      exact ⟨rfl, rfl, rfl, rfl⟩
    | some task =>
      simp only [found] at result
      split at result
      · cases result
      · split at result
        · cases result
        · cases result
          exact .refl _

private theorem destroyReleased_reclaims
    (listed : old.task = none → ∃ ic, engine.storage.chunk? old.ref = some ic ∧ ic.task = none) :
    Reclaims env config new scope engine (destroyReleased env config old engine).2 := by
  unfold destroyReleased
  cases task : old.task with
  | none =>
    obtain ⟨ic, found, unused⟩ := listed task
    exact .single (.chunkGone found unused)
  | some t =>
    simp only
    cases found : engine.task? t with
    | none => exact reclaims_fault _
    | some task =>
      simp only
      split
      · next unused => exact .single (.taskGone found unused)
      · exact .refl

private theorem countDroppedRecords_reclaims :
    Reclaims env config new scope engine (countDroppedRecords env o old engine) := by
  unfold countDroppedRecords
  cases old.task with
  | none => exact reclaims_tock _
  | some t =>
    simp only
    split
    · exact .head .counted (reclaims_tock _)
    · exact reclaims_tock _

theorem storage_countDroppedRecords (o : OutId) (old : InputChunk) (engine : Engine) :
    (countDroppedRecords env o old engine).storage = engine.storage := by
  unfold countDroppedRecords
  cases old.task with
  | none => rfl
  | some t =>
    simp only
    split <;> rfl

private theorem countDroppedRecords_withStorage (change : Storage → Storage) :
    countDroppedRecords env o old (engine.withStorage change) =
      (countDroppedRecords env o old engine).withStorage change := by
  unfold countDroppedRecords
  cases old.task with
  | none => rfl
  | some t =>
    have same : ∀ site, (engine.withStorage change).answers env site = engine.answers env site := fun _ => rfl
    simp only [same]
    split <;> rfl

private theorem releaseChunk_reclaims (inScope : scope o) (release : ReleaseScope) (c : ChunkRef) (engine : Engine) :
    Reclaims env config new scope engine (releaseChunk env config new o release c engine).2 := by
  unfold releaseChunk
  cases found : engine.storage.chunk? c with
  | none => exact .refl
  | some old =>
    obtain ⟨-, rfl⟩ := Storage.chunk?_some found
    simp only
    split
    · exact .refl
    · next passes =>
      simp only [Bool.or_eq_true, not_or, Bool.not_eq_true, Bool.not_eq_false', inputChunkSafeDelete,
        Bool.and_eq_true, decide_eq_true_eq] at passes
      obtain ⟨routed, different, -⟩ := passes
      rcases dropped : inputChunkDropTaskRoute old.task o engine with ⟨_ | count, marked⟩
      · exact .single (.elsewhere (inputChunkDropTaskRoute_none dropped))
      · have shape := inputChunkDropTaskRoute_some dropped
        have marks : Reclaims env config new scope engine marked := by
          rcases shape with rfl | ⟨r, rfl⟩
          · exact .refl
          · exact .single .taskRoute
        have storage : marked.storage = engine.storage := by
          rcases shape with rfl | ⟨r, rfl⟩ <;> rfl
        have counts : Reclaims env config new scope marked
            (if count = 0 then countDroppedRecords env o old marked else marked) := by
          split
          · exact countDroppedRecords_reclaims
          · exact .refl
        have sameStorage : (if count = 0 then countDroppedRecords env o old marked else marked).storage =
            engine.storage := by
          split
          · rw [storage_countDroppedRecords, storage]
          · exact storage
        have settled := marks.trans counts
        cases release with
        | onlyRoute =>
          have cleared : (if count = 0
              then countDroppedRecords env o old
                (marked.withStorage (dropRoute old.ref o (inputChunkGetRealSize old)))
              else marked.withStorage (dropRoute old.ref o (inputChunkGetRealSize old))) =
              (if count = 0 then countDroppedRecords env o old marked else marked).withStorage
                (dropRoute old.ref o (inputChunkGetRealSize old)) := by
            split
            · exact countDroppedRecords_withStorage _
            · rfl
          simp only
          rw [cleared]
          generalize (if count = 0 then countDroppedRecords env o old marked else marked) = counted at *
          rw [← sameStorage] at found
          have dropped := settled.tail (.route inScope found different routed)
          split
          · refine dropped.trans (destroyReleased_reclaims fun unused => ?_)
            refine ⟨{ old with routesMask := old.routesMask.clearBit o }, ?_, unused⟩
            have shown := Storage.chunk?_setChunk
              (fun ic => { ic with routesMask := ic.routesMask.clearBit o }) (fun _ => rfl) counted.storage
              old.ref
            rw [found] at shown
            exact shown
          · exact dropped
        | wholeChunk =>
          simp only
          refine settled.trans (destroyReleased_reclaims ?_)
          intro unused
          rw [sameStorage]
          exact ⟨old, found, unused⟩

private theorem releaseLoop_reclaims (inScope : scope o) (release : ReleaseScope) (required : Int)
    (refs : List ChunkRef)
    (released : Int) (engine : Engine) :
    Reclaims env config new scope engine (releaseLoop env config new o release required refs released engine).2 := by
  induction refs generalizing released engine with
  | nil => exact .refl
  | cons c rest ih =>
    have first := @releaseChunk_reclaims env config new scope o inScope release c engine
    unfold releaseLoop
    rcases outcome : releaseChunk env config new o release c engine with ⟨_ | bytes, after⟩
    · rw [outcome] at first
      exact first.trans (ih _ _)
    · rw [outcome] at first
      simp only
      split
      · exact first
      · exact first.trans (ih _ _)

theorem inputChunkReleaseSpace_reclaims (inScope : scope o) (i : InputId) (release : ReleaseScope) (required : Int)
    (engine : Engine) :
    Reclaims env config new scope engine (inputChunkReleaseSpace env config new i o release required engine).2 :=
  releaseLoop_reclaims inScope release required _ 0 engine

private theorem releaseOtherInputs_reclaims (inScope : scope o) (own : InputId) (inputs : List InputId) (required : Int)
    (engine : Engine) :
    Reclaims env config new scope engine (releaseOtherInputs env config new own o inputs required engine).2 := by
  induction inputs generalizing required engine with
  | nil => exact .refl
  | cons i rest ih =>
    have first : Reclaims env config new scope engine (if i = own then (required, engine)
          else inputChunkReleaseSpace env config new i o .onlyRoute required engine).2 := by
      split
      · exact .refl
      · exact inputChunkReleaseSpace_reclaims inScope i .onlyRoute required engine
    unfold releaseOtherInputs
    generalize (if i = own then (required, engine)
      else inputChunkReleaseSpace env config new i o .onlyRoute required engine) = outcome at first ⊢
    simp only
    split
    · exact first
    · exact first.trans (ih _ _)

private theorem whileRequired_reclaims {stage : Int → Engine → Int × Engine}
    (reclaims : ∀ required engine, Reclaims env config new scope engine (stage required engine).2)
    (required : Int) :
    Reclaims env config new scope engine (whileRequired stage required engine).2 := by
  unfold whileRequired
  split
  · exact reclaims required engine
  · exact .refl

private theorem inputChunkReleaseSpaceCompound_reclaims (inScope : scope o) (ic : InputChunk) (engine : Engine) :
    Reclaims env config ic.ref scope engine (inputChunkReleaseSpaceCompound env config ic o engine).2 := by
  have backlogInput : ∀ (required : Int) (engine : Engine), Reclaims env config ic.ref scope engine
      (releaseBacklogInput env config ic.ref o required engine).2 := by
    intro required engine
    unfold releaseBacklogInput
    cases config.storageInputPlugin with
    | none => exact reclaims_fault _
    | some i => exact inputChunkReleaseSpace_reclaims inScope i .wholeChunk required engine
  have queues : ∀ (required : Int) (engine : Engine), Reclaims env config ic.ref scope engine
      (sbReleaseOutputQueueSpace env config o required engine).2 := fun required engine =>
    .single (.elsewhere (unconcerned_sbReleaseOutputQueueSpace o required engine))
  have own := @inputChunkReleaseSpace_reclaims env config ic.ref scope o inScope ic.ins .onlyRoute
  have others := @releaseOtherInputs_reclaims env config ic.ref scope o inScope ic.ins (config.inputs.map (·.id))
  exact (((whileRequired_reclaims backlogInput _).trans (whileRequired_reclaims queues _)).trans
    (whileRequired_reclaims own _)).trans (whileRequired_reclaims others _)

private theorem findSpaceLoop_reclaims (ic : InputChunk) (overlimit : BitVec 32) (outputs : List OutputInstance)
    (limited : ∀ o ∈ outputs, o.totalLimitSize.isSome = true → scope o.id) (engine : Engine) :
    Reclaims env config ic.ref scope engine (findSpaceLoop env config ic overlimit outputs engine) := by
  induction outputs generalizing engine with
  | nil => exact .refl
  | cons o rest ih =>
    have later := fun other member => limited other (mem_cons_of_mem _ member)
    unfold findSpaceLoop
    split
    · exact ih later engine
    · next chosen =>
      simp only [Bool.or_eq_true, not_or, Bool.not_eq_true, Option.isNone_eq_false_iff] at chosen
      have first := @inputChunkReleaseSpaceCompound_reclaims env config scope o.id
        (limited o (mem_cons_self ..) chosen.1.1) ic engine
      exact first.trans (ih later _)

end Release

theorem Config.output?_of_mem {o : OutputInstance} (member : o ∈ config.outputs) : config.output? o.id = some o := by
  unfold Config.output?
  cases found : config.outputs.find? (·.id = o.id) with
  | none => exact absurd (List.find?_eq_none.mp found o member) (by simp)
  | some other =>
    have same : other.id = o.id := by simpa using List.find?_some found
    rw [inj_on_of_nodup_map config.outputIds (mem_of_find?_eq_some found) member same]

theorem inputChunkPlaceNewChunk_reclaims (c : ChunkRef) (chunkSize : SizeT) (engine : Engine) :
    Reclaims env config c (fun o => config.isLimited o = true) engine
      (inputChunkPlaceNewChunk env config c chunkSize engine).2 := by
  unfold inputChunkPlaceNewChunk
  cases found : engine.storage.chunk? c with
  | none => exact reclaims_fault _
  | some ic =>
    obtain ⟨-, rfl⟩ := Storage.chunk?_some found
    simp only
    split
    · split
      · refine findSpaceLoop_reclaims ic _ config.outputs (fun o member limited => ?_) engine
        simp only [Config.isLimited, Config.totalLimitSize, Config.output?_of_mem member]
        exact limited
      · exact .refl
    · exact .refl

section Memrb

private theorem memrbReleaseChunk_reclaims (c : ChunkRef) (engine : Engine) :
    Reclaims env config new scope engine (memrbReleaseChunk env config c engine).2 := by
  unfold memrbReleaseChunk
  cases found : engine.storage.chunk? c with
  | none => exact .refl
  | some ic =>
    simp only
    split
    · exact .refl
    · next safe =>
      cases task : ic.task with
      | none => exact .single (.chunkGone found task)
      | some t =>
        simp only
        simp only [inputChunkIsTaskSafeDelete, task, Bool.not_eq_true, Bool.not_eq_false'] at safe
        cases present : engine.task? t with
        | none =>
          have shape : taskDestroy env config t true engine = { engine with fault := true } := by
            simp [taskDestroy, present]
          rw [shape]
          exact reclaims_fault _
        | some owner =>
          rw [present] at safe
          exact .single (.taskGone present (by simpa using safe))

theorem memrbReleaseLoop_reclaims (required : Nat) (refs : List ChunkRef) (released : Int) (engine : Engine) :
    Reclaims env config new scope engine (memrbReleaseLoop env config required refs released engine).2 := by
  induction refs generalizing released engine with
  | nil => exact .refl
  | cons c rest ih =>
    have first := @memrbReleaseChunk_reclaims env config new scope c engine
    unfold memrbReleaseLoop
    rcases outcome : memrbReleaseChunk env config c engine with ⟨_ | bytes, after⟩
    · rw [outcome] at first
      exact first.trans (ih _ _)
    · rw [outcome] at first
      simp only
      split
      · exact first
      · exact first.trans (ih _ _)

end Memrb

end FluentBit

/-! For which outputs `flb_input_chunk_find_space_new_data` releases space, when it is told them by
`flb_input_chunk_has_overlimit_routes`. -/

namespace FluentBit.Overlimit

open List Nat BitVec

/-- The outputs the loop of `flb_input_chunk_find_space_new_data` does not pass over. -/
def calls (config : Config) (ic : InputChunk) (overlimit : BitVec 32) : List OutId :=
  (config.outputs.filter fun o =>
    !(o.totalLimitSize.isNone || (overlimitBit o.id &&& overlimit) == 0 || !ic.routesTo o.id)).map (·.id)

def limited (config : Config) (ic : InputChunk) (o : OutId) : Prop :=
  config.isLimited o = true ∧ ic.routesTo o = true

/-- With so many bytes more the chunks of the output take more than its limit. -/
def exceeds (config : Config) (storage : Storage) (chunkSize : SizeT) (o : OutId) : Prop :=
  ∃ limit, config.totalLimitSize o = some limit ∧
    (BitVec.ofNat 64 limit).toNat <
      (storage.fsChunksSize o).toNat + (storage.fsBacklogChunksSize o).toNat + chunkSize.toNat

def Keeps (config : Config) (ic : InputChunk) (chunkSize : SizeT) (storage : Storage) : Prop :=
  ∀ o, o ∈ calls config ic (inputChunkHasOverlimitRoutes config ic chunkSize storage) ↔
    limited config ic o ∧ exceeds config storage chunkSize o

/-- What the bits of an `int` and the size in 64 bits let through unharmed. -/
structure Condition (config : Config) (ic : InputChunk) (chunkSize : SizeT) (storage : Storage) : Prop where
  /-- an output over its limit shares its bit only with others over theirs -/
  apart : ∀ o other, limited config ic o → limited config ic other → o % 32 = other % 32 →
    exceedsLimit config storage other chunkSize = true → exceeds config storage chunkSize o
  /-- the sum of an output over its limit does not wrap around below it, or its bit is set for another one -/
  seen : ∀ o, limited config ic o → exceeds config storage chunkSize o →
    ∃ other, limited config ic other ∧ o % 32 = other % 32 ∧ exceedsLimit config storage other chunkSize = true

theorem findSpaceLoop_eq (env : Env) (config : Config) (ic : InputChunk) (overlimit : BitVec 32)
    (outputs : List OutputInstance) (engine : Engine) :
    findSpaceLoop env config ic overlimit outputs engine = ((outputs.filter fun o =>
        !(o.totalLimitSize.isNone || (overlimitBit o.id &&& overlimit) == 0 || !ic.routesTo o.id)).map (·.id)).foldl
        (fun engine o => (inputChunkReleaseSpaceCompound env config ic o engine).2) engine := by
  induction outputs generalizing engine with
  | nil => rfl
  | cons o outputs ih =>
    unfold findSpaceLoop
    split
    · next passed =>
      rw [ih, filter_cons_of_neg (by rw [passed]; decide)]
    · next called =>
      rw [ih, filter_cons_of_pos (by rw [Bool.not_eq_true] at called; rw [called]; rfl)]
      rfl

/-! ## The mask -/

private theorem getLsbD_hasOverlimitRoutes (config : Config) (ic : InputChunk) (chunkSize : SizeT) (storage : Storage)
    (bit : Nat) : (inputChunkHasOverlimitRoutes config ic chunkSize storage).getLsbD bit = config.outputs.any fun o =>
      (ic.routesTo o.id && exceedsLimit config storage o.id chunkSize) && decide (o.id % 32 = bit) := by
  have fold : ∀ (outputs : List OutputInstance) (overlimit : BitVec 32), (outputs.foldl (fun overlimit o =>
        if ic.routesTo o.id && exceedsLimit config storage o.id chunkSize
        then overlimit ||| overlimitBit o.id else overlimit) overlimit).getLsbD bit =
      (overlimit.getLsbD bit || outputs.any fun o =>
        (ic.routesTo o.id && exceedsLimit config storage o.id chunkSize) && decide (o.id % 32 = bit)) := by
    intro outputs
    induction outputs with
    | nil => exact fun overlimit => (Bool.or_false _).symm
    | cons o outputs ih =>
      intro overlimit
      rw [foldl_cons, ih, any_cons]
      have small : o.id % 32 < 32 := mod_lt _ (by decide)
      cases ic.routesTo o.id && exceedsLimit config storage o.id chunkSize with
      | false => rfl
      | true =>
        simp [overlimitBit, small, Bool.or_assoc]
  have start : (0 : BitVec 32).getLsbD bit = false := getLsbD_zero
  unfold inputChunkHasOverlimitRoutes
  rw [fold, start, Bool.false_or]

private theorem overlimitBit_and (o : OutId) (overlimit : BitVec 32) :
    ((overlimitBit o &&& overlimit) == 0) = !overlimit.getLsbD (o % 32) := by
  have small : o % 32 < 32 := mod_lt _ (by decide)
  unfold overlimitBit
  rw [twoPow_and]
  cases overlimit.getLsbD (o % 32) with
  | false => rfl
  | true =>
    have bit : (BitVec.twoPow 32 (o % 32)).getLsbD (o % 32) = true := by
      rw [getLsbD_twoPow]
      simp [small]
    rw [if_pos rfl, Bool.not_true, beq_eq_false_iff_ne]
    intro zero
    have unset : (0 : BitVec 32).getLsbD (o % 32) = false := getLsbD_zero
    rw [zero, unset] at bit
    cases bit

variable {config : Config} {o : OutId}

theorem isLimited_iff :
    config.isLimited o = true ↔ ∃ out ∈ config.outputs, out.id = o ∧ out.totalLimitSize.isNone = false := by
  unfold Config.isLimited Config.totalLimitSize
  constructor
  · intro isLimited
    obtain ⟨limit, known⟩ := Option.isSome_iff_exists.mp isLimited
    obtain ⟨out, found, size⟩ := Option.bind_eq_some_iff.mp known
    refine ⟨out, mem_of_find?_eq_some found, by simpa using List.find?_some found, ?_⟩
    rw [size]
    rfl
  · intro given
    obtain ⟨out, member, rfl, size⟩ := given
    rw [Config.output?_of_mem member]
    exact (Option.isNone_eq_false_iff).mp size

private theorem isLimited_of_exceedsLimit {storage : Storage} {chunkSize : SizeT}
    (exceeding : exceedsLimit config storage o chunkSize = true) : config.isLimited o = true := by
  obtain ⟨limit, known, -⟩ := (Option.any_eq_true _ _).mp exceeding
  exact Option.isSome_iff_exists.mpr ⟨limit, known⟩

theorem mem_calls (ic : InputChunk) (chunkSize : SizeT) (storage : Storage) :
    o ∈ calls config ic (inputChunkHasOverlimitRoutes config ic chunkSize storage) ↔
      limited config ic o ∧ ∃ other, limited config ic other ∧ o % 32 = other % 32 ∧
        exceedsLimit config storage other chunkSize = true := by
  unfold calls
  simp only [mem_map, mem_filter, overlimitBit_and, getLsbD_hasOverlimitRoutes, Bool.not_eq_true',
    Bool.or_eq_false_iff, Bool.not_eq_false', any_eq_true, Bool.and_eq_true, decide_eq_true_eq]
  constructor
  · intro called
    obtain ⟨out, ⟨member, ⟨size, other, otherMember, ⟨otherRouted, exceeding⟩, same⟩, routed⟩, rfl⟩ := called
    exact ⟨⟨isLimited_iff.mpr ⟨out, member, rfl, size⟩, routed⟩, other.id,
      ⟨isLimited_of_exceedsLimit exceeding, otherRouted⟩, same.symm, exceeding⟩
  · intro wanted
    obtain ⟨⟨isLimited, routed⟩, other, ⟨otherLimited, otherRouted⟩, same, exceeding⟩ := wanted
    obtain ⟨out, member, rfl, size⟩ := isLimited_iff.mp isLimited
    obtain ⟨second, secondMember, rfl, -⟩ := isLimited_iff.mp otherLimited
    exact ⟨out, ⟨member, ⟨size, second, secondMember, ⟨otherRouted, exceeding⟩, same.symm⟩, routed⟩, rfl⟩

private theorem reclaims_iff (ic : InputChunk) (chunkSize : SizeT) (storage : Storage) :
    Keeps config ic chunkSize storage ↔ Condition config ic chunkSize storage := by
  unfold Keeps
  constructor
  · intro exact
    constructor
    · intro o other route otherRoute same exceeding
      exact ((exact o).mp ((mem_calls ..).mpr ⟨route, other, otherRoute, same, exceeding⟩)).2
    · intro o route exceeding
      exact ((mem_calls ..).mp ((exact o).mpr ⟨route, exceeding⟩)).2
  · intro condition o
    rw [mem_calls]
    constructor
    · intro called
      obtain ⟨route, other, otherRoute, same, exceeding⟩ := called
      exact ⟨route, condition.apart o other route otherRoute same exceeding⟩
    · intro wanted
      exact ⟨wanted.1, condition.seen o wanted.1 wanted.2⟩

theorem foldl_reclaims {env : Env} {config : Config} {scope : OutId → Prop} (ic : InputChunk) (outputs : List OutId)
    (inScope : ∀ o ∈ outputs, scope o) (engine : Engine) : Reclaims env config ic.ref scope engine
      (outputs.foldl (fun engine o => (inputChunkReleaseSpaceCompound env config ic o engine).2) engine) := by
  induction outputs generalizing engine with
  | nil => exact .refl
  | cons o outputs ih =>
    have first := @inputChunkReleaseSpaceCompound_reclaims env config scope o (inScope o mem_cons_self) ic engine
    exact first.trans (ih (fun other member => inScope other (mem_cons_of_mem _ member)) _)

def sampleConfig : Config :=
  Sample.config .fs
    ((List.range 33).map fun o =>
      { Sample.output o with totalLimitSize := if o % 32 = 0 then some 100 else none })
    (by decide)

def sampleChunk : InputChunk :=
  { ref := 0, ins := 0, eventType := .logs, fsCounted := true, busy := false, fsBacklog := false,
    totalRecords := 1, addedRecords := 0, task := none,
    chunk := { ref := 7, stream := 9, file := true, realSize := 95, dataSize := 10, metaSize := 2, tag := [],
               eventType := .logs, up := true, locked := false, sound := by decide },
    routesMask := (RoutesMask.cleared.setBit 0).setBit 32 }

def sampleStorage : Storage :=
  { (started Sample.noDisk).storage with fsChunksSize := fun o => if o = 0 then 95 else 0 }

end FluentBit.Overlimit
