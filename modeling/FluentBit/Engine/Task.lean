import FluentBit.Storage.Chunk

/-! Tasks, routes and retries, after `flb_task.c` and `flb_task.h`. -/

set_option autoImplicit false

namespace FluentBit

variable (env : Env) (config : Config)

/-- The number of slots of `config->tasks_map`. -/
def tasksMapSize : Nat := 2048

/-- `map_get_task_id`: the lowest free slot. -/
def mapGetTaskId (engine : Engine) : Option Nat :=
  (List.range tasksMapSize).find? fun id => (engine.tasksMap id).isNone

def mapSetTaskId (id : Nat) (t : TaskRef) (engine : Engine) : Engine :=
  { engine with tasksMap := fun slot => if slot = id then some t else engine.tasksMap slot }

def mapFreeTaskId (id : Nat) (engine : Engine) : Engine :=
  { engine with tasksMap := fun slot => if slot = id then none else engine.tasksMap slot }

def taskRetryDestroy (r : RetryRef) (engine : Engine) : Engine :=
  let engine := schedRequestInvalidate r engine
  { engine with retries := engine.retries.filter (·.ref ≠ r) }

/-- `flb_task_destroy`. The retries of the task go one by one. -/
def taskDestroy (t : TaskRef) (del : Bool) (engine : Engine) : Engine :=
  match engine.task? t with
  | none => { engine with fault := true }
  | some task =>
    let engine := mapFreeTaskId task.id engine
    let engine := { engine with tasks := Tally.discard Task.ref t engine.tasks }
    let engine := inputChunkDestroy env config task.ic del engine
    let engine := ((engine.retries.filter (·.parent = t)).map (·.ref)).foldl
      (fun engine r => taskRetryDestroy r engine) engine
    engine.withStorage (inputChunkSetLimits config task.ins)

/-- `task->users == 0 && mk_list_size(&task->retries) == 0` -/
def taskIsIdle (engine : Engine) (task : Task) : Bool :=
  decide (task.users = 0) && engine.noRetries task.ref

def taskUsersRelease (t : TaskRef) (engine : Engine) : Engine :=
  match engine.task? t with
  | none => { engine with fault := true }
  | some task =>
    if taskIsIdle engine task then
      taskDestroy env config t true (engine.record (.taskReleased task))
    else engine

def taskUsersInc (t : TaskRef) (engine : Engine) : Engine :=
  engine.setTask t fun task => { task with users := task.users + 1 }

/-- `flb_task_users_dec` with `release_check` off. -/
def taskUsersDec (t : TaskRef) (engine : Engine) : Engine :=
  engine.setTask t fun task => { task with users := task.users - 1 }

/-- `flb_task_users_dec` with `release_check` on. -/
def taskUsersDecRelease (t : TaskRef) (engine : Engine) : Engine :=
  taskUsersRelease env config t (taskUsersDec t engine)

def taskRetryReschedule (retry : TaskRetry) (engine : Engine) : Bool × Engine :=
  match schedRequestCreate env retry.ref engine with
  | (some _, engine) => (true, engine)
  | (none, engine) => (false, taskUsersRelease env config retry.parent (taskRetryDestroy retry.ref engine))

/-- The closing part of `flb_task_retry_create`: a chunk without other users
may be put down to respect the memory limits. -/
def retryAdjustChunk (t : TaskRef) (engine : Engine) : Engine :=
  match engine.task? t with
  | none => { engine with fault := true }
  | some task =>
    let engine := if task.users ≤ 1 then engine.withStorage (inputChunkSetUpDown config task.ic) else engine
    if task.routes.length = 1 then engine.withStorage (inputChunkDown task.ic) else engine

def taskRetryCreate (t : TaskRef) (o : OutId) (engine : Engine) : Option RetryRef × Engine :=
  match engine.retries.find? fun retry => decide (retry.parent = t ∧ retry.out = o) with
  | some retry =>
    if (retry.attempts : Int) ≥ config.retryLimit o ∧ config.retryLimit o ≥ 0 then
      (none, taskRetryDestroy retry.ref engine)
    else
      let engine := { engine with
        retries := Tally.replace TaskRetry.ref retry.ref
          (fun retry => { retry with attempts := retry.attempts + 1 }) engine.retries }
      (some retry.ref, retryAdjustChunk config t engine)
  | none =>
    if !engine.answers env .retryAlloc then (none, engine.tock)
    else
      let retry : TaskRetry := { ref := engine.nextRef, attempts := 1, out := o, parent := t }
      let engine := { engine.tock with
        retries := engine.retries ++ [retry]
        nextRef := engine.nextRef + 1 }
      (some retry.ref, retryAdjustChunk config t engine)

def taskRetryClean (t : TaskRef) (o : OutId) (engine : Engine) : Engine :=
  match engine.retries.find? fun retry => decide (retry.parent = t ∧ retry.out = o) with
  | some retry => taskRetryDestroy retry.ref engine
  | none => engine

/-- `flb_task_set_route_status`: the first route to the output. -/
def setRouteStatus (o : OutId) (status : RouteStatus) : List TaskRoute → List TaskRoute
  | [] => []
  | route :: rest =>
    if route.out = o then { route with status } :: rest else route :: setRouteStatus o status rest

def taskSetRouteStatus (t : TaskRef) (o : OutId) (status : RouteStatus) (engine : Engine) : Engine :=
  engine.setTask t fun task => { task with routes := setRouteStatus o status task.routes }

def taskGetRouteStatus (task : Task) (o : OutId) : RouteStatus :=
  match task.routes.find? (·.out = o) with
  | some route => route.status
  | none => .inactive

/-- The routes of a task created for an input with direct routes. Their status
is not initialised. An allocation that fails ends the loop. -/
def directRoutes : List OutId → List TaskRoute → Engine → Bool × List TaskRoute × Engine
  | [], routes, engine => (true, routes, engine)
  | o :: rest, routes, engine =>
    if !engine.answers env .routeAlloc then (false, routes, engine.tock)
    else
      let status := match engine.supplies env .routeStatus with
        | 0 => RouteStatus.inactive
        | 2 => RouteStatus.dropped
        | _ => RouteStatus.active
      directRoutes rest (routes ++ [⟨status, o⟩]) engine.tock

def maskRoutes (ic : InputChunk) : List OutputInstance → List TaskRoute → Engine → List TaskRoute × Engine
  | [], routes, engine => (routes, engine)
  | o :: rest, routes, engine =>
    if o.eventType ic.eventType && ic.routesTo o.id then
      if engine.answers env .routeAlloc then
        maskRoutes ic rest (routes ++ [⟨.inactive, o.id⟩]) engine.tock
      else maskRoutes ic rest routes engine.tock
    else maskRoutes ic rest routes engine

/-- The result of `flb_task_create`: the task, or whether `*err` was set. -/
inductive TaskCreated where
  | task (t : TaskRef)
  | failed (err : Bool)
  deriving DecidableEq, Repr

def taskAlloc (engine : Engine) : Option (TaskRef × Nat) × Engine :=
  if !engine.answers env .taskAlloc then (none, engine.tock)
  else
    let engine := engine.tock
    match mapGetTaskId engine with
    | none => (none, engine)
    | some id => (some (engine.nextRef, id),
        mapSetTaskId id engine.nextRef { engine with nextRef := engine.nextRef + 1 })

/-- The part of `flb_task_create` that links the new task and its chunk. -/
def linkTask (ic : InputChunk) (t : TaskRef) (id : Nat) (engine : Engine) : Engine :=
  let task : Task :=
    { ref := t, id, status := .new, users := 0, records := ic.totalRecords, routes := [],
      ins := ic.ins, ic := ic.ref }
  { engine with
    tasks := engine.tasks ++ [task]
    storage := engine.storage.setChunk ic.ref fun ic => { ic with task := some t } }

/-- The part of `flb_task_create` that finds the routes of the new task. -/
def routeTask (ic : InputChunk) (t : TaskRef) (engine : Engine) : TaskCreated × Engine :=
  match config.routesDirect ic.ins with
  | [] =>
    let (routes, engine) := maskRoutes env ic config.outputs [] engine
    let engine := engine.setTask t fun task => { task with routes }
    if routes.isEmpty then (.failed false, taskDestroy env config t true engine)
    else (.task t, engine)
  | direct =>
    match directRoutes env direct [] engine with
    | (false, routes, engine) =>
      let engine := engine.setTask t fun task => { task with routes }
      (.failed false, taskDestroy env config t true engine)
    | (true, routes, engine) => (.task t, engine.setTask t fun task => { task with routes })

/-- `flb_task_create`. When the event chunk cannot be allocated the task is
freed and its slot keeps pointing to it. -/
def taskCreate (ic : InputChunk) (engine : Engine) : TaskCreated × Engine :=
  match taskAlloc env engine with
  | (none, engine) => (.failed true, engine)
  | (some (t, id), engine) =>
    if !engine.answers env .eventChunkCreate then
      (.failed true, engine.tock.record (.taskCreateFailed t))
    else routeTask env config ic t (linkTask ic t id engine.tock)

end FluentBit
