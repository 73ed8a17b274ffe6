import FluentBit.Engine.Event

/-! The life cycle of tasks, flushes and retries as a machine of its own. A
handler of the engine is a sequence of small moves; what it still has to do
after a move is kept as a stack of frames. Chunks and buffers are left out. -/

set_option autoImplicit false

namespace FluentBit

structure Life where
  tasks : List Task
  tasksMap : Nat → Option TaskRef
  retries : List TaskRetry
  requests : List SchedRequest
  pending : List TaskEnqueued
  inProgress : List TaskEnqueued
  flushes : List OutputFlush
  history : List Action
  nextRef : Nat

def Engine.life (engine : Engine) : Life :=
  { tasks := engine.tasks, tasksMap := engine.tasksMap, retries := engine.retries,
    requests := engine.requests ++ engine.requestsWait, pending := engine.pending,
    inProgress := engine.inProgress, flushes := engine.flushes, history := engine.history,
    nextRef := engine.nextRef }

inductive Frame where
  /-- `tasks_start` is at work on a task with these routes -/
  | starting (t : TaskRef) (outs : List OutId)
  /-- a route that `tasks_start` has yet to visit -/
  | route (t : TaskRef) (o : OutId)
  /-- a flush to start, for a retry or not, from a queue or not -/
  | attempt (t : TaskRef) (o : OutId) (retry : Option RetryRef) (queued : Bool)
  /-- the start of a flush failed: its retry has to go -/
  | doomed (t : TaskRef) (o : OutId) (retry : Option RetryRef)
  /-- the entry in progress of a queue is over -/
  | advance (o : OutId)
  /-- the next entry of a queue may start -/
  | turn (o : OutId)
  /-- the result of a flush, whose user is still counted -/
  | result (t : TaskRef) (o : OutId)
  /-- the work on a route is over, its user is still counted -/
  | closing (t : TaskRef) (o : OutId)
  /-- a retry without a request -/
  | unscheduled (t : TaskRef) (o : OutId) (r : RetryRef)
  /-- the request that fired is still listed -/
  | spent (req : Nat) (r : RetryRef)
  deriving DecidableEq, Repr

namespace Life

def task? (life : Life) (t : TaskRef) : Option Task := life.tasks.find? (·.ref = t)

def act (action : Action) (life : Life) : Life := { life with history := action :: life.history }

def setTask (t : TaskRef) (change : Task → Task) (life : Life) : Life :=
  { life with tasks := Tally.replace Task.ref t change life.tasks }

def acquire (t : TaskRef) (life : Life) : Life :=
  life.setTask t fun task => { task with users := task.users + 1 }

def dismiss (t : TaskRef) (life : Life) : Life :=
  life.setTask t fun task => { task with users := task.users - 1 }

def setStatus (t : TaskRef) (status : TaskStatus) (life : Life) : Life :=
  life.setTask t fun task => { task with status }

def setRoute (t : TaskRef) (o : OutId) (status : RouteStatus) (life : Life) : Life :=
  life.setTask t fun task => { task with routes := setRouteStatus o status task.routes }

def eraseRoute (t : TaskRef) (o : OutId) (life : Life) : Life :=
  life.setTask t fun task => { task with routes := task.routes.eraseP (·.out = o) }

def setPhase (f : Nat) (phase : FlushPhase) (life : Life) : Life :=
  { life with flushes := Tally.replace OutputFlush.ref f (fun flush => { flush with phase }) life.flushes }

def start (t : TaskRef) (o : OutId) (life : Life) : Life :=
  { (life.acquire t).act (.flushStarted o t) with
    flushes := life.flushes ++ [{ ref := life.nextRef, task := t, out := o, phase := .handed }]
    nextRef := life.nextRef + 1 }

def enqueue (retry : Option RetryRef) (t : TaskRef) (o : OutId) (life : Life) : Life :=
  { (life.acquire t).act (.enqueued o t) with
    pending := life.pending ++ [{ ref := life.nextRef, task := t, retry, out := o }]
    nextRef := life.nextRef + 1 }

def pop (entry : TaskEnqueued) (o : OutId) (life : Life) : Life :=
  { life.dismiss entry.task with
    pending := life.pending.eraseP (·.out = o)
    inProgress := life.inProgress ++ [entry] }

def retire (o : OutId) (life : Life) : Life :=
  { life with inProgress := life.inProgress.eraseP (·.out = o) }

def retryDestroy (r : RetryRef) (life : Life) : Life :=
  { life with
    requests := life.requests.eraseP (·.data = r)
    retries := life.retries.filter (·.ref ≠ r) }

def findRetry (life : Life) (t : TaskRef) (o : OutId) : Option TaskRetry :=
  life.retries.find? fun retry => decide (retry.parent = t ∧ retry.out = o)

def retryClean (t : TaskRef) (o : OutId) (life : Life) : Life :=
  match life.findRetry t o with
  | some retry => life.retryDestroy retry.ref
  | none => life

def retryAgain (r : RetryRef) (life : Life) : Life :=
  { life with
    retries := Tally.replace TaskRetry.ref r
      (fun retry => { retry with attempts := retry.attempts + 1 }) life.retries }

def retryFirst (t : TaskRef) (o : OutId) (life : Life) : Life :=
  { life with
    retries := life.retries ++ [{ ref := life.nextRef, attempts := 1, out := o, parent := t }]
    nextRef := life.nextRef + 1 }

def schedule (request : SchedRequest) (life : Life) : Life :=
  { life with requests := life.requests ++ [request], nextRef := life.nextRef + 1 }

def requestDestroy (req : Nat) (life : Life) : Life :=
  { life with requests := life.requests.filter (·.ref ≠ req) }

def invalidate (r : RetryRef) (life : Life) : Life :=
  { life with requests := life.requests.eraseP (·.data = r) }

def destroy (task : Task) (life : Life) : Life :=
  let freed : Life := { life with
    tasksMap := fun slot => if slot = task.id then none else life.tasksMap slot
    tasks := Tally.discard Task.ref task.ref life.tasks }
  ((life.retries.filter (·.parent = task.ref)).map (·.ref)).foldl (fun life r => life.retryDestroy r) freed

def noRetries (life : Life) (t : TaskRef) : Bool := life.retries.all (·.parent ≠ t)

def isIdle (life : Life) (task : Task) : Bool := decide (task.users = 0) && life.noRetries task.ref

def release (t : TaskRef) (life : Life) : Life :=
  match life.task? t with
  | none => life
  | some task => if life.isIdle task then (life.act (.taskReleased task)).destroy task else life

def create (task : Task) (life : Life) : Life :=
  { life with
    tasks := life.tasks ++ [task]
    tasksMap := fun slot => if slot = task.id then some task.ref else life.tasksMap slot
    nextRef := life.nextRef + 1 }

def leakSlot (id : Nat) (life : Life) : Life :=
  { life.act (.taskCreateFailed life.nextRef) with
    tasksMap := fun slot => if slot = id then some life.nextRef else life.tasksMap slot
    nextRef := life.nextRef + 1 }

end Life

/-- Nothing happens to a task; requests may be listed in another order and
addresses may be handed out to other objects. -/
structure Quiet (before after : Life) : Prop where
  tasks : after.tasks = before.tasks
  tasksMap : after.tasksMap = before.tasksMap
  retries : after.retries = before.retries
  requests : after.requests.Perm before.requests
  pending : after.pending = before.pending
  inProgress : after.inProgress = before.inProgress
  flushes : after.flushes = before.flushes
  history : after.history = before.history
  nextRef : before.nextRef ≤ after.nextRef

structure Rules where
  /-- the routes of the tasks it may create -/
  creates : List OutId → Prop
  /-- it may count dropped records while space is released -/
  counts : Prop
  /-- the states in which it may reschedule a retry -/
  reschedules : Life → Prop
  /-- it may fail to reschedule one -/
  refuses : Prop
  /-- it may find a chunk of a retry unreadable -/
  unreads : Prop

def whenSynchronous (config : Config) (o : OutId) : List Frame :=
  if config.isSynchronous o then [.advance o] else []

def whenIdle (life : Life) (o : OutId) : List Frame :=
  if (life.inProgress.find? (·.out = o)).isNone then [.turn o] else []

def afterFailure (queued : Bool) (t : TaskRef) (o : OutId) (retry : Option RetryRef) : List Frame :=
  .doomed t o retry :: if queued then [.advance o] else []

inductive Move (env : Env) (config : Config) (rules : Rules) : List Frame × Life → List Frame × Life → Prop where
  | quiet {frames life after} : Quiet life after → Move env config rules (frames, life) (frames, after)
  | created {task life} :
      task.ref = life.nextRef → task.status = .new → task.users = 0 → task.id < tasksMapSize →
      life.tasksMap task.id = none → rules.creates (task.routes.map (·.out)) →
      Move env config rules ([], life) ([], life.create task)
  | leaked {id life} :
      env.Refuses .eventChunkCreate → id < tasksMapSize → life.tasksMap id = none →
      Move env config rules ([], life) ([], life.leakSlot id)
  | destroyed {task life} :
      life.task? task.ref = some task → task.users = 0 →
      Move env config rules ([], life) ([], life.destroy task)
  | routeDropped {t o life} : Move env config rules ([], life) ([], life.setRoute t o .dropped)
  | dropCounted {o t life} : rules.counts →
      Move env config rules ([], life) ([], life.act (.recordsDropped o t))
  | phase {flush phase status life} : flush ∈ life.flushes →
      (phase = .skipped → ∃ o, config.isThreaded o = true ∧ env.Refuses (.flushCreate o)) →
      Move env config rules ([], life)
        ([], (life.setPhase flush.ref phase).setRoute flush.task flush.out status)
  | erased {t o life} : Move env config rules ([], life) ([], life.eraseRoute t o)
  | run {task life} :
      life.task? task.ref = some task → task.status = .new →
      Move env config rules ([], life)
        (task.routes.map (fun route => .route task.ref route.out) ++
          [.starting task.ref (task.routes.map (·.out))], life.setStatus task.ref .running)
  | routeErased {t o frames life} :
      Move env config rules (.route t o :: frames, life) (frames, life.eraseRoute t o)
  | routeLost {t o outs frames life} :
      .starting t outs ∈ frames → config.isNoMultiplex o = true → o ∈ outs → 2 ≤ outs.length →
      Move env config rules (.route t o :: frames, life) (frames, life)
  | routeOpened {t o frames life} :
      Move env config rules (.route t o :: frames, life) (.attempt t o none false :: frames, life)
  | begun {t outs o frames life} :
      .flushStarted o t ∈ life.history ∨ .enqueued o t ∈ life.history ∨
        .flushFailed o t ∈ life.history ∨ .enqueueFailed o t ∈ life.history →
      Move env config rules (.starting t outs :: frames, life) (frames, life)
  | flushed {t o retry queued frames life} : queued = config.isSynchronous o →
      Move env config rules (.attempt t o retry queued :: frames, life) (frames, life.start t o)
  | poolRefused {t o retry queued frames life} :
      queued = config.isSynchronous o → config.isThreaded o = true → env.Refuses (.poolFlush o) →
      Move env config rules (.attempt t o retry queued :: frames, life)
        (whenSynchronous config o ++ frames, life.act (.flushFailed o t))
  | createRefused {t o retry queued frames life} :
      queued = config.isSynchronous o → config.isThreaded o = false → env.Refuses (.flushCreate o) →
      Move env config rules (.attempt t o retry queued :: frames, life)
        (afterFailure queued t o retry ++ frames, life.act (.flushFailed o t))
  | pipeRefused {t o retry queued frames life} :
      queued = config.isSynchronous o → config.isThreaded o = false → env.Refuses (.pipeWrite o) →
      Move env config rules (.attempt t o retry queued :: frames, life)
        (whenSynchronous config o ++ afterFailure queued t o retry ++ frames, life.act (.flushFailed o t))
  | doomed {t o r frames life} :
      Move env config rules (.doomed t o (some r) :: frames, life) (frames, life.retryDestroy r)
  | undoomed {t o frames life} :
      Move env config rules (.doomed t o none :: frames, life) (frames, life)
  | enqueued {t o retry frames life} : config.isSynchronous o = true →
      Move env config rules (.attempt t o retry false :: frames, life)
        (whenIdle life o ++ frames, life.enqueue retry t o)
  | enqueueRefused {t o retry frames life} : env.Refuses (.enqueueAlloc o) →
      Move env config rules (.attempt t o retry false :: frames, life)
        (.doomed t o retry :: frames, (life.acquire t).act (.enqueueFailed o t))
  | popped {o entry frames life} : life.pending.find? (·.out = o) = some entry →
      Move env config rules (.turn o :: frames, life)
        (.attempt entry.task o entry.retry true :: frames, life.pop entry o)
  | exhausted {o frames life} : life.pending.find? (·.out = o) = none →
      Move env config rules (.turn o :: frames, life) (frames, life)
  | retired {o frames life} :
      Move env config rules (.advance o :: frames, life) (.turn o :: frames, life.retire o)
  | result {f flush t life} :
      life.flushes.find? (·.ref = f) = some flush →
      ((life.task? flush.task).bind fun task => life.tasksMap task.id) = some t →
      Move env config rules ([], life)
        (whenSynchronous config flush.out ++ [.result t flush.out],
          { life with flushes := life.flushes.eraseP (·.ref = f) })
  | delivered {t o life} : Move env config rules ([.result t o], life) ([.closing t o], life)
  | dropped {t o life} :
      Move env config rules ([.result t o], life) ([.closing t o], life.act (.recordsDropped o t))
  | limitReached {t o retry life} : life.findRetry t o = some retry →
      Move env config rules ([.result t o], life)
        ([.closing t o], (life.retryDestroy retry.ref).act (.recordsDropped o t))
  | finished {t o life} :
      Move env config rules ([.closing t o], life) ([], ((life.retryClean t o).dismiss t).release t)
  | retriedAgain {t o retry life} : life.findRetry t o = some retry →
      ((retry.attempts : Int) < config.retryLimit o ∨ config.retryLimit o < 0) →
      Move env config rules ([.result t o], life)
        ([.unscheduled t o retry.ref], (life.retryAgain retry.ref).dismiss t)
  | retriedFirst {t o life} : life.findRetry t o = none → config.retryLimit o ≠ 0 →
      Move env config rules ([.result t o], life)
        ([.unscheduled t o life.nextRef], (life.retryFirst t o).dismiss t)
  | scheduled {t o r request life} : request.ref = life.nextRef → request.data = r →
      Move env config rules ([.unscheduled t o r], life) ([], life.schedule request)
  | unschedulable {t o r life} :
      Move env config rules ([.unscheduled t o r], life) ([], (life.retryDestroy r).release t)
  | fired {request retry life} : request ∈ life.requests → retry ∈ life.retries →
      request.data = retry.ref →
      Move env config rules ([], life)
        ([.attempt retry.parent retry.out (some retry.ref) false, .spent request.ref retry.ref], life)
  | unreadable {t o r frames life} : rules.unreads →
      Move env config rules (.attempt t o (some r) false :: frames, life) (.doomed t o (some r) :: frames, life)
  | postponed {t o r request frames life} : request.ref = life.nextRef → request.data = r →
      Move env config rules (.attempt t o (some r) false :: frames, life) (frames, life.schedule request)
  | abandoned {t o r req life} :
      Move env config rules ([.attempt t o (some r) false, .spent req r], life)
        ([.spent req r], (life.retryDestroy r).release t)
  | spent {req r life} : Move env config rules ([.spent req r], life) ([], life.requestDestroy req)
  | forgotten {req r life} : (∀ retry ∈ life.retries, retry.ref ≠ r) →
      Move env config rules ([.spent req r], life) ([], life)
  | rescheduled {retry request life} : rules.reschedules life → retry ∈ life.retries →
      request.ref = life.nextRef → request.data = retry.ref →
      Move env config rules ([], life) ([], (life.invalidate retry.ref).schedule request)
  | rescheduleRefused {retry life} : rules.reschedules life → retry ∈ life.retries → rules.refuses →
      Move env config rules ([], life) ([], life.invalidate retry.ref)

abbrev Moves (env : Env) (config : Config) (rules : Rules) : List Frame × Life → List Frame × Life → Prop :=
  Relation.ReflTransGen (Move env config rules)

end FluentBit
