import FluentBit.Engine.Task

/-! Starting flushes and the singleplex queues of synchronous outputs, after
`flb_output.c`. Every caller passes the queue of the output it names, so the
queue of an output is the entries that name it, oldest first. A failed flush
of a synchronous output advances its queue, which may start further flushes;
`next` stands for that recursive call of `flb_output_task_singleplex_flush_next`. -/

set_option autoImplicit false

namespace FluentBit

variable (env : Env) (config : Config)

def startFlush (t : TaskRef) (o : OutId) (engine : Engine) : Engine :=
  { engine.record (.flushStarted o t) with
    flushes := engine.flushes ++ [{ ref := engine.nextRef, task := t, out := o, phase := .handed }]
    nextRef := engine.nextRef + 1 }

/-- `flb_output_task_flush`. The result is false for -1; a worker that cannot
take the task does not make the call fail. -/
def outputTaskFlush (next : OutId → Engine → Engine) (t : TaskRef) (o : OutId) (engine : Engine) : Bool × Engine :=
  let advance := fun engine : Engine => if config.isSynchronous o then next o engine else engine
  if config.isThreaded o then
    let engine := taskUsersInc t engine
    if engine.answers env (.poolFlush o) then (true, startFlush t o engine.tock)
    else (true, advance ((taskUsersDec t engine.tock).record (.flushFailed o t)))
  else if !engine.answers env (.flushCreate o) then
    (false, engine.tock.record (.flushFailed o t))
  else
    let engine := taskUsersInc t engine.tock
    if engine.answers env (.pipeWrite o) then (true, startFlush t o engine.tock)
    else (false, advance ((taskUsersDec t engine.tock).record (.flushFailed o t)))

/-- `flb_output_task_queue_enqueue`. The retry goes when the entry cannot be allocated. -/
def outputTaskQueueEnqueue (retry : Option RetryRef) (t : TaskRef) (o : OutId) (engine : Engine) : Bool × Engine :=
  if engine.answers env (.enqueueAlloc o) then
    let engine := engine.tock.record (.enqueued o t)
    (true, { engine with
      pending := engine.pending ++ [{ ref := engine.nextRef, task := t, retry, out := o }]
      nextRef := engine.nextRef + 1 })
  else
    let engine := engine.tock.record (.enqueueFailed o t)
    (false, match retry with
      | some r => taskRetryDestroy r engine
      | none => engine)

/-- The source reads an entry, which the nested advance of the queue may have
freed; the model reads what it held. -/
def readEntry (queued : TaskEnqueued) (engine : Engine) : Engine :=
  { engine with fault := engine.fault || engine.inProgress.all (·.ref ≠ queued.ref) }

/-- `flb_output_task_queue_flush_one`. After a failed flush the retry of the
entry goes. -/
def outputTaskQueueFlushOne (next : OutId → Engine → Engine) (o : OutId) (engine : Engine) : Bool × Engine :=
  match engine.pending.find? (·.out = o) with
  | none => (false, engine)
  | some queued =>
    let engine := { engine with
      pending := engine.pending.eraseP (·.out = o)
      inProgress := engine.inProgress ++ [queued] }
    let engine := taskUsersDec queued.task engine
    match outputTaskFlush env config next queued.task o engine with
    | (true, engine) => (true, engine)
    | (false, engine) =>
      let engine := readEntry queued engine
      let engine := match queued.retry with
        | some r => taskRetryDestroy r engine
        | none => engine
      (false, next o engine)

/-- `flb_output_task_singleplex_flush_next`. The first argument bounds the
nesting; the number of waiting entries is enough. -/
def singleplexFlushNext : Nat → OutId → Engine → Engine
  | 0, o, engine => { engine with inProgress := engine.inProgress.eraseP (·.out = o) }
  | depth + 1, o, engine =>
    let engine := { engine with inProgress := engine.inProgress.eraseP (·.out = o) }
    match engine.pending.find? (·.out = o) with
    | none => engine
    | some _ => (outputTaskQueueFlushOne env config (singleplexFlushNext depth) o engine).2

def pendingSize (engine : Engine) (o : OutId) : Nat := engine.pending.countP (·.out = o)

def outputTaskSingleplexFlushNext (o : OutId) (engine : Engine) : Engine :=
  singleplexFlushNext env config (pendingSize engine o) o engine

/-- `flb_output_task_singleplex_enqueue`. The temporary user stays when the
entry cannot be allocated. -/
def outputTaskSingleplexEnqueue (retry : Option RetryRef) (t : TaskRef) (o : OutId) (engine : Engine) : Bool × Engine :=
  let engine := taskUsersInc t engine
  match outputTaskQueueEnqueue env retry t o engine with
  | (false, engine) => (false, engine)
  | (true, engine) =>
    if (engine.inProgress.find? (·.out = o)).isNone then
      outputTaskQueueFlushOne env config (outputTaskSingleplexFlushNext env config) o engine
    else (true, engine)

def outputTaskFlushNow (t : TaskRef) (o : OutId) (engine : Engine) : Bool × Engine :=
  outputTaskFlush env config (outputTaskSingleplexFlushNext env config) t o engine

/-- `flb_output_coros_size`: coroutines that have not returned. A worker
creates its coroutine when it reads the task from its pipe. -/
def outputCorosSize (o : OutId) (engine : Engine) : Nat :=
  engine.flushes.countP fun flush => decide (flush.out = o) &&
    match flush.phase with
    | .handed => !config.isThreaded o
    | .running => true
    | .returned _ | .skipped => false

def setFlushPhase (flush : OutputFlush) (phase : FlushPhase) (status : RouteStatus) (engine : Engine) : Engine :=
  taskSetRouteStatus flush.task flush.out status { engine with
    flushes := Tally.replace OutputFlush.ref flush.ref
      (fun flush => { flush with phase }) engine.flushes }

/-- `output_pre_cb_flush`: the coroutine starts. Without events it returns at
once, on a dropped route with an error, otherwise the route becomes active. A
worker creates the flush before, and goes on to the next task when that fails. -/
def outputPreCbFlush (f : Nat) (engine : Engine) : Engine :=
  match engine.flushes.find? (·.ref = f) with
  | none => engine
  | some flush =>
    match flush.phase, engine.task? flush.task with
    | .handed, some task =>
      if config.isThreaded flush.out && !engine.answers env (.flushCreate flush.out) then
        -- the route keeps its status
        setFlushPhase flush .skipped (taskGetRouteStatus task flush.out) engine.tock
      else if engine.supplies env .eventCount = 0 then
        setFlushPhase flush (.returned .ok) .inactive engine.tock
      else if taskGetRouteStatus task flush.out = .dropped then
        setFlushPhase flush (.returned .error) .inactive engine.tock
      else setFlushPhase flush .running .active engine.tock
    | _, _ => engine

/-- `flb_output_return`: the coroutine delivers its result. -/
def outputReturn (f : Nat) (ret : FlushReturn) (engine : Engine) : Engine :=
  match engine.flushes.find? (·.ref = f) with
  | none => engine
  | some flush =>
    match flush.phase with
    | .running => setFlushPhase flush (.returned ret) .inactive engine
    | _ => engine

/-! Turning chunks into tasks and starting their flushes, after
`flb_engine_dispatch.c`. -/

/-- `flb_engine_dispatch_retry`; false stands for -1. -/
def engineDispatchRetry (retry : TaskRetry) (engine : Engine) : Bool × Engine :=
  match engine.task? retry.parent with
  | none => (false, { engine with fault := true })
  | some task =>
    match inputChunkSetUp env task.ic engine with
    | (false, engine) => taskRetryReschedule env config retry engine
    | (true, engine) =>
      match inputChunkFlush env config task.ic engine with
      | (none, engine) => (false, taskRetryDestroy retry.ref engine)
      | (some _, engine) =>
        if config.isSynchronous retry.out then
          outputTaskSingleplexEnqueue env config (some retry.ref) retry.parent retry.out engine
        else match outputTaskFlushNow env config retry.parent retry.out engine with
          | (true, engine) => (true, engine)
          | (false, engine) => (false, taskRetryDestroy retry.ref engine)

/-- `flb_sched_event_handler` for the timer of a request. A timer that was
invalidated has no request any more and does nothing. -/
def schedEventHandler (req : Nat) (engine : Engine) : Engine :=
  match engine.requests.find? (·.ref = req) with
  | none => engine
  | some request =>
    match engine.retry? request.data with
    | none => { engine with fault := true }
    | some retry =>
      match engineDispatchRetry env config retry engine with
      | (true, engine) => schedRequestDestroy req engine
      | (false, engine) => engine

/-- `out->flags & FLB_OUTPUT_NO_MULTIPLEX` and the output or a retry keeps it busy. -/
def skipsRoute (retrying : Bool) (o : OutId) (engine : Engine) : Bool :=
  config.isNoMultiplex o && (decide (0 < outputCorosSize config o engine) || retrying)

/-- The body of the route loop of `tasks_start`, with the number of hits. The
result of starting the flush is not looked at. -/
def startRoute (retrying : Bool) (t : TaskRef) (o : OutId) (hits : Nat) (engine : Engine) : Nat × Engine :=
  if config.isTestMode o then
    (hits, engine.setTask t fun task => { task with routes := task.routes.eraseP (·.out = o) })
  else if skipsRoute config retrying o engine then (hits, engine)
  else if config.isSynchronous o then
    (hits + 1, (outputTaskSingleplexEnqueue env config none t o engine).2)
  else (hits + 1, (outputTaskFlushNow env config t o engine).2)

def startRoutes (retrying : Bool) (t : TaskRef) : List OutId → Nat → Engine → Nat × Engine
  | [], hits, engine => (hits, engine)
  | o :: rest, hits, engine =>
    let (hits, engine) := startRoute env config retrying t o hits engine
    startRoutes retrying t rest hits engine

def setTaskStatus (t : TaskRef) (status : TaskStatus) (engine : Engine) : Engine :=
  engine.setTask t fun task => { task with status }

/-- The body of the task loop of `tasks_start`. A task none of whose routes was
hit is new again. -/
def startTask (t : TaskRef) (retrying : Bool) (engine : Engine) : Bool × Engine :=
  match engine.task? t with
  | none => (retrying, engine)
  | some task =>
    let retrying := retrying || !engine.noRetries t
    if task.status ≠ .new then (retrying, engine)
    else
      let engine := setTaskStatus t .running engine
      match startRoutes env config retrying t (task.routes.map (·.out)) 0 engine with
      | (0, engine) => (retrying, setTaskStatus t .new engine)
      | (_, engine) => (retrying, engine)

def startTasks : List TaskRef → Bool → Engine → Engine
  | [], _, engine => engine
  | t :: rest, retrying, engine =>
    let (retrying, engine) := startTask env config t retrying engine
    startTasks rest retrying engine

def tasksStart (i : InputId) (engine : Engine) : Engine :=
  startTasks env config ((engine.inputTasks i).map (·.ref)) false engine

/-- The body of the chunk loop of `flb_engine_dispatch` for a chunk that is not busy. -/
def dispatchChunk (c : ChunkRef) (engine : Engine) : Engine :=
  let release := fun engine : Engine => engine.withStorage (inputChunkReleaseLock c)
  match inputChunkFlush env config c engine with
  | (none, engine) => release engine
  | (some 0, engine) => release engine
  | (some _, engine) =>
    match engine.storage.chunk? c with
    | none => { engine with fault := true }
    | some ic =>
      if !engine.answers env .chunkTag || ic.chunk.tag.isEmpty then release engine.tock
      else match taskCreate env config ic engine.tock with
        | (.failed true, engine) => (release engine).withStorage (inputChunkDown c)
        | (_, engine) => engine

/-- The chunk loop of `flb_engine_dispatch`; it ends when no task id is free. -/
def dispatchChunks : List ChunkRef → Engine → Engine
  | [], engine => engine
  | c :: rest, engine =>
    match engine.storage.chunk? c with
    | none => dispatchChunks rest engine
    | some ic =>
      if ic.busy then dispatchChunks rest engine
      else if (mapGetTaskId engine).isNone then engine
      else dispatchChunks rest (dispatchChunk env config c engine)

/-- The clean-up at the end of `flb_engine_dispatch`: tasks whose routes were
all taken by outputs in test mode. -/
def cleanupTask (t : TaskRef) (engine : Engine) : Engine :=
  match engine.task? t with
  | none => engine
  | some task =>
    if taskIsIdle engine task && task.routes.isEmpty then taskDestroy env config t true engine
    else engine

def engineDispatch (i : InputId) (engine : Engine) : Engine :=
  let engine := dispatchChunks env config ((engine.storage.inputChunks i).map (·.ref)) engine
  let engine := tasksStart env config i engine
  ((engine.inputTasks i).map (·.ref)).foldl (fun engine t => cleanupTask env config t engine) engine

end FluentBit
