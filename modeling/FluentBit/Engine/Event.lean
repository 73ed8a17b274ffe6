import FluentBit.Engine.Dispatch
import FluentBit.Storage.Append

/-! The events of the engine loop, after `flb_engine.c`. The handler of an
event runs to its end before the next event is taken. -/

set_option autoImplicit false

namespace FluentBit

section

variable (env : Env) (config : Config)

/-- The end of a task's work for one output in `handle_output_event`. -/
def finishRoute (t : TaskRef) (o : OutId) (engine : Engine) : Engine :=
  taskUsersDecRelease env config t (taskRetryClean t o engine)

/-- The case `FLB_RETRY` of `handle_output_event` for an output with retries. -/
def retryRoute (t : TaskRef) (o : OutId) (engine : Engine) : Engine :=
  match taskRetryCreate env config t o engine with
  | (none, engine) => finishRoute env config t o (engine.record (.recordsDropped o t))
  | (some r, engine) =>
    let engine := taskUsersDec t engine
    match schedRequestCreate env r engine with
    | (some _, engine) => engine
    | (none, engine) => taskUsersRelease env config t (taskRetryDestroy r engine)

/-- `handle_output_event` once the flush has been taken off its list. -/
def handleOutputReturn (ret : FlushReturn) (t : TaskRef) (o : OutId) (engine : Engine) : Engine :=
  let engine := if config.isSynchronous o then outputTaskSingleplexFlushNext env config o engine else engine
  match ret with
  | .ok => finishRoute env config t o engine
  | .error => finishRoute env config t o (engine.record (.recordsDropped o t))
  | .retry =>
    if config.retryLimit o = 0
    then finishRoute env config t o (engine.record (.recordsDropped o t))
    else retryRoute env config t o engine

/-- `handle_output_event`. The event carries the id of the task, which selects
the slot of the tasks map. -/
def handleOutputEvent (f : Nat) (engine : Engine) : Engine :=
  match engine.flushes.find? (·.ref = f) with
  | none => engine
  | some flush =>
    match flush.phase with
    | .returned ret =>
      match (engine.task? flush.task).bind fun task => engine.tasksMap task.id with
      | none => { engine with fault := true }
      | some t =>
        handleOutputReturn env config ret t flush.out
          { engine with flushes := engine.flushes.eraseP (·.ref = f) }
    | _ => engine

/-- The body of the loops of `flb_engine_reschedule_retries`. -/
def rescheduleRetry (r : RetryRef) (engine : Engine) : Engine :=
  (schedRetryNow env r (schedRequestInvalidate r engine)).2

/-- The questions of `flb_sched_retry_now`. -/
def rescheduleTicks : Nat := 4

def scheduledRetries (engine : Engine) : List RetryRef :=
  config.inputs.flatMap fun i => (engine.inputTasks i.id).flatMap fun task =>
    (engine.retries.filter (·.parent = task.ref)).map (·.ref)

def engineRescheduleRetries (engine : Engine) : Engine :=
  (scheduledRetries config engine).foldl (fun engine r => rescheduleRetry env r engine) engine

/-- The case `FLB_ENGINE_STOP` of the engine loop. -/
def engineStop (engine : Engine) : Engine :=
  let engine := if engine.graceCount = 0 then engineRescheduleRetries env config engine else engine
  { engine with
    isShuttingDown := true
    storage := { engine.storage with isIngestionActive := false } }

inductive Event where
  | append (args : AppendRaw)
  | dispatch (i : InputId)
  | preCbFlush (f : Nat)
  | outputReturn (f : Nat) (ret : FlushReturn)
  | outputEvent (f : Nat)
  | schedTimer (req : Nat)
  | schedFrame
  | stop
  | shutdown
  | segregate
  | queueChunks (i : InputId) (passes : Nat)

/-- `shutdown` stands for the case `FLB_ENGINE_SHUTDOWN` where the engine goes on. -/
def step : Event → Engine → Engine
  | .append args => inputChunkAppendRaw env config args
  | .dispatch i => engineDispatch env config i
  | .preCbFlush f => outputPreCbFlush env config f
  | .outputReturn f ret => outputReturn f ret
  | .outputEvent f => handleOutputEvent env config f
  | .schedTimer req => schedEventHandler env config req
  | .schedFrame => scheduleRequestPromote env
  | .stop => engineStop env config
  | .shutdown => fun engine => { engine with graceCount := engine.graceCount + 1 }
  | .segregate => sbSegregateChunks env config
  | .queueChunks i passes => cbQueueChunks env config i passes

structure OnDisk where
  cio : List CioChunk
  distinct : (cio.map (·.ref)).Nodup

def started (onDisk : OnDisk) : Engine :=
  { storage :=
      { chunks := [], fsChunksSize := fun _ => 0, fsBacklogChunksSize := fun _ => 0,
        htChunks := fun _ _ _ => none, memory := fun _ => ⟨0, false, false⟩,
        backlog := ⟨onDisk.cio, []⟩, isRunning := true, isIngestionActive := true }
    tasks := [], tasksMap := fun _ => none, retries := [], requests := [], requestsWait := [],
    pending := [], inProgress := [], flushes := [], isShuttingDown := false, graceCount := 0,
    nextRef := onDisk.cio.foldl (fun bound cio => max bound (cio.ref + 1)) 0, tick := 0, history := [],
    fault := false }

end

/-! A small configuration and environments for it, for runs on concrete events. -/

namespace Sample

def output (id : OutId) : OutputInstance :=
  { id, routerMatch := fun _ => true, eventType := fun _ => true, synchronous := false, noMultiplex := false,
    isThreaded := false, testMode := false, retryLimit := 0, totalLimitSize := none }

def input (id : InputId) (storageType : StorageType) : InputInstance :=
  { id, name := [0], tag := [], storageType, memBufLimit := 0, storagePauseOnChunksOverlimit := false,
    routable := true, routesDirect := [], directOnce := List.nodup_nil }

def config (storageType : StorageType) (outputs : List OutputInstance)
    (outputIds : (outputs.map (·.id)).Nodup) : Config :=
  { outputs, inputs := [input 0 storageType, input 9 .fs], storageInputPlugin := some 9,
    storageBlMemLimit := 1000, storageDelBadChunks := false, maxChunksUp := 100, outputIds }

def env (refuses : Site → Nat → Bool) : Env :=
  { ok := fun site tick => !refuses site tick, value := fun _ _ => 1 }

def willing : Env := env fun _ _ => false

theorem willing_never_refuses (site : Site) : ¬willing.Refuses site := by
  rintro ⟨tick, refused⟩
  cases refused

def noDisk : OnDisk := ⟨[], List.nodup_nil⟩

def logs (tag : Tag) : AppendRaw :=
  { ins := 0, eventType := .logs, nRecords := 1, tag := some tag, bufSize := 10, filteredSize := 10,
    filteredRecords := 1 }

def singleplex : Config := Sample.config .mem [{ output 0 with synchronous := true }] (by decide)

end Sample

end FluentBit
