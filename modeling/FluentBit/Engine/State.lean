import FluentBit.Config
import FluentBit.Foundation.Tally

/-! The mutable state of a running engine. Objects the source reaches through
pointers carry the address they were allocated at, and a list of such objects
holds the live ones. The lists that the source hangs below an input, a task or
an output are kept in one list each, in linking order; the member that names
the owner selects the source's list. -/

set_option autoImplicit false

namespace FluentBit

/-- `struct cio_chunk` with its backend. `dataSize` survives a chunk that is
down, `realSize` is what `cio_chunk_get_real_size` answers. A file always has a
header; a chunk in memory is always up and as long as its data. -/
structure CioChunk where
  ref : ChunkRef
  stream : InputId
  file : Bool
  realSize : Nat
  dataSize : Nat
  metaSize : Nat
  tag : Tag
  eventType : EventType
  up : Bool
  locked : Bool
  sound : if file then 0 < realSize else up = true ∧ realSize = dataSize

structure InputChunk where
  ref : ChunkRef
  ins : InputId
  eventType : EventType
  fsCounted : Bool
  busy : Bool
  fsBacklog : Bool
  totalRecords : Nat
  addedRecords : Nat
  chunk : CioChunk
  task : Option TaskRef
  routesMask : RoutesMask

/-- The memory accounting of `struct flb_input_instance`. -/
structure InputMemory where
  memChunksSize : Nat
  memBufPaused : Bool
  storageBufPaused : Bool

structure SbOutChunk where
  chunk : ChunkRef
  size : SizeT

structure SbOutQueue where
  ins : OutId
  chunks : List SbOutChunk

/-- The chunks found on disk that no input chunk owns yet, and the queues of
the storage backlog plugin that refer to them. -/
structure Backlog where
  cio : List CioChunk
  queues : List SbOutQueue

structure Storage where
  chunks : List InputChunk
  fsChunksSize : OutId → SizeT
  fsBacklogChunksSize : OutId → SizeT
  htChunks : InputId → EventType → Tag → Option ChunkRef
  memory : InputId → InputMemory
  backlog : Backlog
  isRunning : Bool
  isIngestionActive : Bool

inductive RouteStatus where
  | inactive | active | dropped
  deriving DecidableEq, Repr

structure TaskRoute where
  status : RouteStatus
  out : OutId
  deriving DecidableEq, Repr

structure TaskRetry where
  ref : RetryRef
  attempts : Nat
  out : OutId
  parent : TaskRef
  deriving DecidableEq, Repr

inductive TaskStatus where
  | new | running
  deriving DecidableEq, Repr

structure Task where
  ref : TaskRef
  id : Nat
  status : TaskStatus
  users : Int
  records : Nat
  routes : List TaskRoute
  ins : InputId
  ic : ChunkRef
  deriving DecidableEq, Repr

structure TaskEnqueued where
  ref : Nat
  task : TaskRef
  retry : Option RetryRef
  out : OutId
  deriving DecidableEq, Repr

structure SchedRequest where
  ref : Nat
  created : Nat
  timeout : Nat
  data : RetryRef
  deriving DecidableEq, Repr

/-- `FLB_OK`, `FLB_ERROR` and `FLB_RETRY` -/
inductive FlushReturn where
  | ok | error | retry
  deriving DecidableEq, Repr

/-- Where a flush is: handed to the event loop or a worker, running in its
coroutine, or returned and waiting for the engine to read its result. Of a flush
that its worker skipped nothing is left but the user of its task. -/
inductive FlushPhase where
  | handed
  | running
  | returned (ret : FlushReturn)
  | skipped
  deriving DecidableEq, Repr

structure OutputFlush where
  ref : Nat
  task : TaskRef
  out : OutId
  phase : FlushPhase
  deriving DecidableEq, Repr

inductive Action where
  | enqueued (o : OutId) (task : TaskRef)
  | enqueueFailed (o : OutId) (task : TaskRef)
  | flushStarted (o : OutId) (task : TaskRef)
  | flushFailed (o : OutId) (task : TaskRef)
  | recordsDropped (o : OutId) (task : TaskRef)
  | taskCreateFailed (task : TaskRef)
  | taskReleased (task : Task)
  deriving DecidableEq, Repr

structure Engine where
  storage : Storage
  tasks : List Task
  tasksMap : Nat → Option TaskRef
  retries : List TaskRetry
  requests : List SchedRequest
  requestsWait : List SchedRequest
  pending : List TaskEnqueued
  inProgress : List TaskEnqueued
  flushes : List OutputFlush
  isShuttingDown : Bool
  graceCount : Nat
  nextRef : Nat
  tick : Nat
  /-- newest action first -/
  history : List Action
  /-- a freed object was reached through a stale pointer -/
  fault : Bool

namespace Engine

def answers (env : Env) (site : Site) (engine : Engine) : Bool := env.ok site engine.tick

def supplies (env : Env) (site : Site) (engine : Engine) : Nat := env.value site engine.tick

def tock (engine : Engine) : Engine := { engine with tick := engine.tick + 1 }

def record (action : Action) (engine : Engine) : Engine :=
  { engine with history := action :: engine.history }

def withStorage (change : Storage → Storage) (engine : Engine) : Engine :=
  { engine with storage := change engine.storage }

/-- The flushes that are under way; nobody works on the others any more. -/
def outstanding (engine : Engine) : List OutputFlush := engine.flushes.filter (·.phase ≠ .skipped)

def skipped (engine : Engine) : List OutputFlush := engine.flushes.filter (·.phase = .skipped)

def task? (engine : Engine) (t : TaskRef) : Option Task := engine.tasks.find? (·.ref = t)

def retry? (engine : Engine) (r : RetryRef) : Option TaskRetry := engine.retries.find? (·.ref = r)

def setTask (t : TaskRef) (change : Task → Task) (engine : Engine) : Engine :=
  { engine with tasks := Tally.replace Task.ref t change engine.tasks }

/-- `mk_list_size(&task->retries) == 0` -/
def noRetries (engine : Engine) (t : TaskRef) : Bool := engine.retries.all (·.parent ≠ t)

def inputTasks (engine : Engine) (i : InputId) : List Task := engine.tasks.filter (·.ins = i)

end Engine

namespace Storage

def chunk? (storage : Storage) (c : ChunkRef) : Option InputChunk := storage.chunks.find? (·.ref = c)

def setChunk (c : ChunkRef) (change : InputChunk → InputChunk) (storage : Storage) : Storage :=
  { storage with chunks := Tally.replace InputChunk.ref c change storage.chunks }

def inputChunks (storage : Storage) (i : InputId) : List InputChunk :=
  storage.chunks.filter (·.ins = i)

end Storage

/-! Retry requests, after `flb_scheduler.c`. A request in `requests` owns an
armed timer; one in `requestsWait` waits to be promoted. -/

def schedRequestFrame : Nat := 10

def schedRequestDestroy (req : Nat) (engine : Engine) : Engine :=
  { engine with
    requests := engine.requests.filter (·.ref ≠ req)
    requestsWait := engine.requestsWait.filter (·.ref ≠ req) }

/-- `flb_sched_request_invalidate`: the first request of a retry, armed ones first. -/
def schedRequestInvalidate (data : RetryRef) (engine : Engine) : Engine :=
  match engine.requests.find? (·.data = data) with
  | some _ => { engine with requests := engine.requests.eraseP (·.data = data) }
  | none => { engine with requestsWait := engine.requestsWait.eraseP (·.data = data) }

def scheduleRequestNow (env : Env) (request : SchedRequest) (engine : Engine) : Bool × Engine :=
  if engine.answers env .timeoutCreate then
    (true, { engine.tock with requests := engine.requests ++ [request] })
  else (false, engine.tock)

def scheduleRequestWait (request : SchedRequest) (engine : Engine) : Engine :=
  { engine with requestsWait := engine.requestsWait ++ [request] }

/-- The wait before the next attempt; `backoff_full_jitter` draws it at random. -/
def retrySeconds (env : Env) (engine : Engine) : Nat :=
  (if engine.isShuttingDown then 0 else engine.supplies env .backoff) + 1

def schedRequestCreate (env : Env) (data : RetryRef) (engine : Engine) : Option Nat × Engine :=
  if !engine.answers env .timerCreate then (none, engine.tock) else
  let engine := engine.tock
  if !engine.answers env .requestAlloc then (none, engine.tock) else
  let engine := engine.tock
  let seconds := retrySeconds env engine
  let request : SchedRequest :=
    { ref := engine.nextRef, created := engine.supplies env .time, timeout := seconds, data }
  let engine := { engine.tock with nextRef := engine.nextRef + 1 }
  if schedRequestFrame < seconds then (some seconds, scheduleRequestWait request engine)
  else match scheduleRequestNow env request engine with
    | (true, engine) => (some seconds, engine)
    | (false, engine) => (none, engine)

def schedRetryNow (env : Env) (data : RetryRef) (engine : Engine) : Bool × Engine :=
  if !engine.answers env .timerCreate then (false, engine.tock) else
  let engine := engine.tock
  if !engine.answers env .requestAlloc then (false, engine.tock) else
  let engine := engine.tock
  let request : SchedRequest :=
    { ref := engine.nextRef, created := engine.supplies env .time, timeout := 0, data }
  scheduleRequestNow env request { engine.tock with nextRef := engine.nextRef + 1 }

/-- One round of the loop of `schedule_request_promote`: a request whose time
falls in the frame is armed, or set aside when that fails. -/
def promoteOne (env : Env) (now : Nat) (request : SchedRequest)
    (failed : List SchedRequest) (engine : Engine) : List SchedRequest × Engine :=
  let passed : Int := (now : Int) - request.created
  if passed > request.timeout ∨ passed + schedRequestFrame ≥ request.timeout then
    let engine := { engine with requestsWait := engine.requestsWait.filter (·.ref ≠ request.ref) }
    match scheduleRequestNow env request engine with
    | (true, engine) => (failed, engine)
    | (false, engine) => (failed ++ [request], engine)
  else (failed, engine)

def promoteLoop (env : Env) (now : Nat) : List SchedRequest → List SchedRequest → Engine → List SchedRequest × Engine
  | [], failed, engine => (failed, engine)
  | request :: rest, failed, engine =>
    let (failed, engine) := promoteOne env now request failed engine
    promoteLoop env now rest failed engine

def scheduleRequestPromote (env : Env) (engine : Engine) : Engine :=
  let now := engine.supplies env .time
  let (failed, engine) := promoteLoop env now engine.requestsWait [] engine.tock
  { engine with requestsWait := engine.requestsWait ++ failed }

end FluentBit
