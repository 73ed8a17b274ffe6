import FluentBit.Engine.DispatchSimulation
import FluentBit.Foundation.Runs
import FluentBit.Storage.Reclaim

/-! Appending, the storage backlog and every event of the engine loop as
sequences of moves of the life-cycle machine. -/

set_option autoImplicit false

namespace FluentBit

open List Tally Life

variable {env : Env} {config : Config} {rules : Rules}

section Reclaim

variable {new : ChunkRef} {scope : OutId → Prop}

variable {before after : Engine}

private theorem life_of_unconcerned (unconcerned : Unconcerned before after) : after.life = before.life := by
  rw [unconcerned.tasks]
  rfl

theorem Reclaim.moves (reclaim : Reclaim env config new scope before after) (allowed : rules.counts) :
    Moves env config rules ([], before.life) ([], after.life) := by
  cases reclaim with
  | elsewhere unconcerned => exact (life_of_unconcerned unconcerned) ▸ .refl
  | chunkGone found unused => exact (life_inputChunkDestroy before _ _) ▸ .refl
  | taskGone found unused =>
    obtain ⟨-, same⟩ := @task?_some before.life _ _ found
    rw [life_taskDestroy before found]
    exact .single (.destroyed (same ▸ found) unused)
  | taskRoute => exact .single .routeDropped
  | counted => exact .single (.dropCounted allowed)
  | route => exact .refl

theorem Reclaims.moves (reclaims : Reclaims env config new scope before after) (allowed : rules.counts) :
    Moves env config rules ([], before.life) ([], after.life) := by
  induction reclaims with
  | refl => exact .refl
  | tail _ reclaim ih => exact ih.trans (reclaim.moves allowed)

end Reclaim

section Append

variable {c : ChunkRef} {args : AppendRaw}

private theorem life_inputChunkUpForce (c : ChunkRef) (engine : Engine) :
    (inputChunkUpForce env c engine).2.life = engine.life := by
  unfold inputChunkUpForce
  cases engine.storage.chunk? c with
  | none => rfl
  | some ic =>
    simp only
    split
    · rfl
    · split
      · rfl
      · split <;> rfl

private theorem life_inputChunkLookup (i : InputId) (type : EventType) (tag : Tag) (engine : Engine) :
    (inputChunkLookup env config i type tag engine).2.2.life = engine.life := by
  unfold inputChunkLookup
  cases engine.storage.htChunks i type tag with
  | none => rfl
  | some c =>
    simp only
    cases engine.storage.chunk? c with
    | none => rfl
    | some ic =>
      simp only
      split
      · rfl
      · split
        · rfl
        · have life := @life_inputChunkUpForce env c engine
          rcases outcome : inputChunkUpForce env c engine with ⟨_ | _ | _, after⟩
          all_goals
            rw [outcome] at life
            exact life

private theorem quiet_inputChunkCreate (i : InputId) (type : EventType) (tag : Tag) (engine : Engine) :
    Quiet engine.life (inputChunkCreate env config i type tag engine).2.life := by
  rcases created : inputChunkCreate env config i type tag engine with ⟨_ | c, after⟩
  · rw [inputChunkCreate_none created]
    exact Quiet.refl _
  · obtain ⟨cio, -, -, -, rfl⟩ := inputChunkCreate_some created
    exact ⟨rfl, rfl, rfl, .refl _, rfl, rfl, rfl, rfl, Nat.le_add_right _ _⟩

private theorem inputChunkPlace_moves (chunkSize : Nat) (engine : Engine) (allowed : rules.counts) :
    Moves env config rules ([], engine.life) ([], (inputChunkPlace env config c chunkSize engine).2.life) := by
  unfold inputChunkPlace
  split
  · exact .refl
  · have placed := (@inputChunkPlaceNewChunk_reclaims env config c (BitVec.ofNat 64 chunkSize) engine).moves allowed
    rcases outcome : inputChunkPlaceNewChunk env config c (BitVec.ofNat 64 chunkSize) engine with ⟨_ | _, after⟩
    · rw [outcome] at placed
      simp only
      rw [life_inputChunkDestroy]
      exact placed
    · rw [outcome] at placed
      exact placed

private theorem inputChunkGet_moves (i : InputId) (type : EventType) (tag : Tag) (chunkSize : Nat) (engine : Engine)
    (allowed : rules.counts) : Moves env config rules ([], engine.life)
      ([], (inputChunkGet env config i type tag chunkSize engine).2.2.life) := by
  have life := @life_inputChunkLookup env config i type (tag.take inputChunkTagMax) engine
  unfold inputChunkGet
  simp only
  rcases looked : inputChunkLookup env config i type (tag.take inputChunkTagMax) engine with ⟨_ | c, setDown, after⟩
  · rw [looked] at life
    have quiet := @quiet_inputChunkCreate env config i type (tag.take inputChunkTagMax) after
    simp only at life
    rw [← life]
    refine (Moves.quiet quiet).trans ?_
    simp only
    rcases inputChunkCreate env config i type (tag.take inputChunkTagMax) after with ⟨_ | c, fresh⟩
    · exact .refl
    · exact inputChunkPlace_moves chunkSize fresh allowed
  · rw [looked] at life
    simp only at life
    rw [← life]
    exact inputChunkPlace_moves chunkSize after allowed

private theorem life_appendWrite (engine : Engine) : (appendWrite env args c engine).2.life = engine.life := by
  unfold appendWrite
  cases engine.storage.chunk? c with
  | none => rfl
  | some ic =>
    simp only
    split
    · rfl
    · split <;> rfl

private theorem life_appendAccount (size : SizeT) (setDown : Bool) (engine : Engine) :
    (appendAccount env config args c size setDown engine).life = engine.life := by
  unfold appendAccount
  cases engine.storage.chunk? c with
  | none => rfl
  | some ic =>
    simp only
    split
    · rw [life_withStorage, life_inputChunkDestroy]
    · split
      · rw [life_inputChunkDestroy]
        split <;> split <;> rfl
      · rw [life_withStorage]
        split <;> split <;> rfl

private theorem life_appendWritten (size : SizeT) (setDown : Bool) (engine : Engine) :
    (match appendWrite env args c engine with
    | (false, engine) => engine
    | (true, engine) => appendAccount env config args c size setDown engine).life = engine.life := by
  have life := @life_appendWrite env c args engine
  rcases outcome : appendWrite env args c engine with ⟨_ | _, after⟩
  · rw [outcome] at life
    exact life
  · rw [outcome] at life
    exact (life_appendAccount size setDown after).trans life

private theorem life_appendChunk (setDown : Bool) (engine : Engine) :
    (appendChunk env config args c setDown engine).life = engine.life := by
  unfold appendChunk
  cases engine.storage.chunk? c with
  | none => rfl
  | some ic =>
    have life := @life_inputChunkUpForce env c engine
    simp only
    rcases outcome : inputChunkUpForce env c engine with ⟨_ | _ | _, after⟩
    · rw [outcome] at life
      exact (life_appendWritten _ _ _).trans life
    · rw [outcome] at life
      exact life
    · rw [outcome] at life
      exact (life_appendWritten _ _ _).trans life

private theorem inputChunkAppendRaw_moves (engine : Engine) (allowed : rules.counts) :
    Moves env config rules ([], engine.life) ([], (inputChunkAppendRaw env config args engine).life) := by
  have released : Reclaims env config 0 (fun o => config.isLimited o = true) engine
      (if config.storageType args.ins = .memrb && inputChunkIsMemOverlimit config args.ins engine.storage
        then memrbInputChunkReleaseSpace env config args.ins args.bufSize engine else (true, engine)).2 := by
    split
    · exact memrbReleaseLoop_reclaims _ _ 0 engine
    · exact .refl
  unfold inputChunkAppendRaw
  generalize (if config.storageType args.ins = .memrb && inputChunkIsMemOverlimit config args.ins engine.storage
    then memrbInputChunkReleaseSpace env config args.ins args.bufSize engine else (true, engine)) = room at released ⊢
  refine (released.moves allowed).trans ?_
  simp only
  split
  · exact .refl
  · have got := @inputChunkGet_moves env config rules args.ins args.eventType (args.resolvedTag config) args.bufSize
      room.2 allowed
    rcases outcome : inputChunkGet env config args.ins args.eventType (args.resolvedTag config) args.bufSize room.2
      with ⟨_ | c, setDown, after⟩
    · rw [outcome] at got
      exact got
    · rw [outcome] at got
      simp only
      rw [life_appendChunk]
      exact got

end Append

section Backlog

private theorem life_cioChunkUpForce (c : ChunkRef) (engine : Engine) :
    (cioChunkUpForce env c engine).2.life = engine.life := by
  unfold cioChunkUpForce
  cases engine.storage.backlog.cio.find? (·.ref = c) with
  | none => rfl
  | some cio =>
    simp only
    split
    · rfl
    · split
      · rfl
      · split <;> rfl

private theorem life_appendToQueues (target : ChunkRef) (mask : RoutesMask) (size : SizeT) (queues : List SbOutQueue)
    (engine : Engine) : (appendToQueues env target mask size queues engine).2.2.life = engine.life := by
  induction queues generalizing engine with
  | nil => rfl
  | cons queue rest ih =>
    unfold appendToQueues
    split
    · split
      · exact ih _
      · rfl
    · exact ih _

private theorem life_sbAppend (cio : CioChunk) (engine : Engine) :
    (sbAppendChunkToSegregatedBacklogs env config cio engine).2.life = engine.life := by
  unfold sbAppendChunkToSegregatedBacklogs
  split
  · rfl
  · exact life_appendToQueues _ _ _ _ _

private theorem life_segregateChunk (c : ChunkRef) (engine : Engine) :
    (segregateChunk env config c engine).2.life = engine.life := by
  have up := @life_cioChunkUpForce env c engine
  unfold segregateChunk
  rcases outcome : cioChunkUpForce env c engine with ⟨_ | _ | _, after⟩
  · rw [outcome] at up
    simp only at up ⊢
    cases after.storage.backlog.cio.find? (·.ref = c) with
    | none => exact up
    | some cio =>
      have appended := @life_sbAppend env config cio after
      simp only
      rcases queued : sbAppendChunkToSegregatedBacklogs env config cio after with ⟨_ | _ | _, last⟩
      · rw [queued] at appended
        exact appended.trans up
      · rw [queued] at appended
        exact appended.trans up
      · rw [queued] at appended
        exact appended.trans up
  · rw [outcome] at up
    exact up
  · rw [outcome] at up
    simp only
    split <;> exact up

private theorem life_segregateLoop (refs : List ChunkRef) (engine : Engine) :
    (segregateLoop env config refs engine).life = engine.life := by
  induction refs generalizing engine with
  | nil => rfl
  | cons c rest ih =>
    have first := @life_segregateChunk env config c engine
    unfold segregateLoop
    rcases outcome : segregateChunk env config c engine with ⟨_ | _, after⟩
    · rw [outcome] at first
      exact first
    · rw [outcome] at first
      exact (ih after).trans first

private theorem life_sbSegregateChunks (engine : Engine) :
    (sbSegregateChunks env config engine).life = engine.life := by
  unfold sbSegregateChunks
  split
  · rfl
  · exact life_segregateLoop _ _

private theorem quiet_visitQueue (i : InputId) (entry : SbOutChunk) (engine : Engine) :
    Quiet engine.life (visitQueue env config i entry engine).2.life := by
  have removed : ∀ engine : Engine,
      (sbRemoveChunkFromSegregatedBacklogs env entry.chunk engine).life = engine.life := fun engine =>
    life_of_unconcerned (unconcerned_sbRemove _ _)
  have up := @life_cioChunkUpForce env entry.chunk engine
  unfold visitQueue
  simp only
  rcases outcome : cioChunkUpForce env entry.chunk engine with ⟨_ | _ | _, after⟩
  · rw [outcome] at up
    simp only at up ⊢
    rw [← up]
    cases after.storage.backlog.cio.find? (·.ref = entry.chunk) with
    | none => exact .refl _
    | some cio =>
      simp only
      split
      · simp only [removed]
        exact .refl _
      · split
        · simp only [removed]
          exact .refl _
        · rcases @inputChunkMap_cases env config i cio.eventType cio after.tock with
            ⟨left, shape⟩ | ⟨records, left, -, shape⟩
          · rw [shape]
            simp only [removed]
            exact .refl _
          · rw [shape]
            simp only [life_withStorage, removed]
            exact ⟨rfl, rfl, rfl, .refl _, rfl, rfl, rfl, rfl, Nat.le_succ _⟩
  · rw [outcome] at up
    simp only at up ⊢
    rw [← up]
    exact .refl _
  · rw [outcome] at up
    simp only at up ⊢
    rw [removed, ← up]
    exact .refl _

private theorem quiet_visitQueues (i : InputId) (positions : List Nat) (total empty : Nat) (engine : Engine) :
    Quiet engine.life (visitQueues env config i positions total empty engine).2.2.life := by
  induction positions generalizing total empty engine with
  | nil => exact .refl _
  | cons position rest ih =>
    unfold visitQueues
    split
    · exact ih _ _ _
    · next entry _ =>
      have first := @quiet_visitQueue env config i entry engine
      split
      · next outcome =>
        rw [outcome] at first
        exact first.trans (ih _ _ _)
      · next outcome =>
        rw [outcome] at first
        exact first.trans (ih _ _ _)

private theorem quiet_queueChunksLoop (i : InputId) (passes total empty : Nat) (engine : Engine) :
    Quiet engine.life (queueChunksLoop env config i passes total empty engine).life := by
  induction passes generalizing total empty engine with
  | zero => exact .refl _
  | succ passes ih =>
    unfold queueChunksLoop
    simp only
    split
    · exact (quiet_visitQueues i _ total 0 engine).trans (ih _ _ _)
    · exact .refl _

end Backlog

section Step

def engineRules (env : Env) (config : Config) (engine : Engine) (event : Event) : Rules where
  creates outs := ∃ i, event = .dispatch i ∧
    ∃ routing ∈ engine.storage.routings, outs.Sublist (taskOutputs config routing)
  counts := ∃ args, event = .append args
  reschedules life := event = .stop ∧ engine.graceCount = 0 ∧ life.retries = engine.retries ∧
    life.pending = engine.pending ∧ life.flushes = engine.flushes
  refuses := event = .stop ∧ StopRefused env config engine
  unreads := ∃ req, event = .schedTimer req ∧ TimerUnread env config req engine

/-- What the engine does at an event is a run of moves of the life cycle. -/
theorem step_moves {engine : Engine} (sound : Sound ([], engine.life)) (event : Event) :
    Moves env config (engineRules env config engine event) ([], engine.life)
      ([], (step env config event engine).life) := by
  cases event with
  | append args => exact inputChunkAppendRaw_moves engine ⟨args, rfl⟩
  | dispatch i =>
    exact engineDispatch_moves sound i fun routing member outs sublist => ⟨i, rfl, routing, member, sublist⟩
  | preCbFlush f => exact outputPreCbFlush_moves f engine
  | outputReturn f ret => exact outputReturn_moves f ret engine
  | outputEvent f => exact handleOutputEvent_moves f engine
  | schedTimer req => exact schedEventHandler_moves sound req fun unread => ⟨req, rfl, unread⟩
  | schedFrame => exact Moves.quiet (quiet_scheduleRequestPromote sound.requestsDistinct)
  | stop =>
    exact engineStop_moves (fun first life retries pending flushes => ⟨rfl, first, retries, pending, flushes⟩)
      fun refused => ⟨rfl, refused⟩
  | shutdown => exact .refl
  | segregate => exact (life_sbSegregateChunks engine) ▸ .refl
  | queueChunks i passes => exact Moves.quiet (quiet_queueChunksLoop i passes _ 0 engine)

theorem sound_started (onDisk : OnDisk) : Sound ([], (started onDisk).life) where
  distinct := nodup_nil
  retriesDistinct := nodup_nil
  requestsDistinct := nodup_nil
  allocated := by simp [taskRefs, started, Engine.life]
  retriesAllocated := by simp [started, Engine.life]
  requestsAllocated := by simp [started, Engine.life]
  slots := by simp [started, Engine.life]
  owners := by simp [started, Engine.life]
  live := by simp [Stage.mentioned, started, Engine.life]
  users := by simp [started, Engine.life]
  touched := by simp [started, Engine.life]
  untouched := by simp [started, Engine.life]
  queues := by simp [started, Engine.life]

/-- The life cycle of each engine that is reached is sound. -/
theorem sound_reachable {admissible : Engine → Event → Prop} {onDisk : OnDisk} {engine : Engine}
    (path : Runs.Path (step env config) admissible (started onDisk) engine) : Sound ([], engine.life) := by
  refine path.invariant (fun engine => Sound ([], engine.life)) (sound_started onDisk) ?_
  intro engine event sound _
  exact sound.run (step_moves sound event)

end Step

end FluentBit
