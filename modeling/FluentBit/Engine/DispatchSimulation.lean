import FluentBit.Engine.HandlerSimulation

/-! `flb_engine_dispatch` as a sequence of moves: tasks are created from chunks,
then the flushes of new tasks are started route by route. -/

set_option autoImplicit false

namespace FluentBit

open List Nat Bool Tally Life

variable {env : Env} {config : Config} {rules : Rules}

def taskOutputs (config : Config) (routing : Routing) : List OutId :=
  match config.routesDirect routing.ins with
  | [] => (config.outputs.filter fun o => o.eventType routing.eventType && routing.routesMask.getBit o.id).map
      (·.id)
  | direct => direct

section Create

private theorem maskRoutes_spec (ic : InputChunk) (outputs : List OutputInstance) (routes : List TaskRoute)
    (engine : Engine) : (maskRoutes env ic outputs routes engine).2.life = engine.life ∧
      (maskRoutes env ic outputs routes engine).2.storage = engine.storage ∧ ∃ added : List OutId,
        added.Sublist ((outputs.filter fun o => o.eventType ic.eventType && ic.routesTo o.id).map (·.id)) ∧
        (maskRoutes env ic outputs routes engine).1.map (·.out) = routes.map (·.out) ++ added := by
  induction outputs generalizing routes engine with
  | nil => exact ⟨rfl, rfl, [], .refl _, by simp [maskRoutes]⟩
  | cons o rest ih =>
    unfold maskRoutes
    split
    · next routed =>
      rw [filter_cons, if_pos routed, map_cons]
      split
      · obtain ⟨life, storage, added, sublist, outs⟩ := ih (routes ++ [⟨.inactive, o.id⟩]) engine.tock
        refine ⟨life, storage, o.id :: added, sublist.cons_cons _, ?_⟩
        rw [outs]
        simp
      · obtain ⟨life, storage, added, sublist, outs⟩ := ih routes engine.tock
        exact ⟨life, storage, added, sublist.cons _, outs⟩
    · next unrouted =>
      rw [filter_cons, if_neg unrouted]
      exact ih routes engine

private theorem directRoutes_spec (direct : List OutId) (routes : List TaskRoute) (engine : Engine) :
    (directRoutes env direct routes engine).2.2.life = engine.life ∧
      (directRoutes env direct routes engine).2.2.storage = engine.storage ∧
      ∃ added : List OutId, added.Sublist direct ∧
        (directRoutes env direct routes engine).2.1.map (·.out) = routes.map (·.out) ++ added := by
  induction direct generalizing routes engine with
  | nil => exact ⟨rfl, rfl, [], .refl _, by simp [directRoutes]⟩
  | cons o rest ih =>
    unfold directRoutes
    split
    · exact ⟨rfl, rfl, [], nil_sublist _, by simp⟩
    · simp only
      obtain ⟨life, storage, added, sublist, outs⟩ := ih (routes ++ [⟨_, o⟩]) engine.tock
      refine ⟨life, storage, o :: added, sublist.cons_cons _, ?_⟩
      rw [outs]
      simp

variable {engine after : Engine} {id : Nat} {life : Life}

private theorem mapGetTaskId_some (found : mapGetTaskId engine = some id) :
    id < tasksMapSize ∧ engine.tasksMap id = none := by
  have member := mem_of_find?_eq_some found
  have free := List.find?_some found
  exact ⟨mem_range.mp member, by simpa using free⟩

/-- A fresh task, as `flb_task_create` makes it. -/
structure Fresh (engine : Engine) (task : Task) : Prop where
  ref : task.ref = engine.nextRef
  status : task.status = .new
  users : task.users = 0
  bounded : task.id < tasksMapSize
  free : engine.tasksMap task.id = none

private theorem missing_of_allocated (allocated : ∀ t ∈ life.taskRefs, t < life.nextRef) :
    ∀ task ∈ life.tasks, task.ref ≠ life.nextRef := by
  intro task member same
  have older := allocated task.ref (mem_taskRefs.mpr ⟨task, member, rfl⟩)
  rw [same] at older
  exact Nat.lt_irrefl _ older

theorem task?_create (allocated : ∀ t ∈ life.taskRefs, t < life.nextRef) {task : Task}
    (fresh : task.ref = life.nextRef) : (life.create task).task? task.ref = some task := by
  have absent : life.tasks.find? (·.ref = task.ref) = none := by
    rw [List.find?_eq_none]
    intro other member same
    exact missing_of_allocated allocated other member ((of_decide_eq_true same).trans fresh)
  simp only [task?, create]
  rw [List.find?_append, absent]
  simp

private theorem created_routes {engine linked : Engine}
    (allocated : ∀ t ∈ engine.life.taskRefs, t < engine.life.nextRef)
    {task : Task} (fresh : Fresh engine task) (shape : linked.life = engine.life.create task)
    (routes : List TaskRoute) :
    (linked.setTask task.ref fun task => { task with routes }).life = engine.life.create { task with routes } ∧
      (linked.setTask task.ref fun task => { task with routes }).task? task.ref = some { task with routes } := by
  have missing : ∀ other ∈ engine.life.tasks, other.ref ≠ task.ref := by
    rw [fresh.ref]
    exact missing_of_allocated allocated
  have tasks : (linked.setTask task.ref fun task => { task with routes }).life =
      engine.life.create { task with routes } := by
    rw [life_setTask, shape]
    simp only [setTask, create, Tally.replace, map_append, map_cons, map_nil, if_true]
    congr 2
    exact replace_of_forall_ne missing
  refine ⟨tasks, ?_⟩
  rw [← task?_life, tasks]
  exact @task?_create engine.life allocated { task with routes } fresh.ref

/-- Retries and requests are all that the destruction of retries changes. -/
theorem foldl_taskRetryDestroy {α : Type} (view : Engine → α) (same : ∀ engine requests requestsWait retries,
      view { engine with requests, requestsWait, retries } = view engine) (refs : List RetryRef) :
    view (refs.foldl (fun engine r => taskRetryDestroy r engine) engine) = view engine := by
  induction refs generalizing engine with
  | nil => rfl
  | cons r rest ih =>
    rw [foldl_cons, ih]
    unfold taskRetryDestroy schedRequestInvalidate
    cases engine.requests.find? (·.data = r) with
    | none | some _ => exact same engine ..

theorem storage_foldl_taskRetryDestroy (refs : List RetryRef) :
    (refs.foldl (fun engine r => taskRetryDestroy r engine) engine).storage = engine.storage :=
  foldl_taskRetryDestroy Engine.storage (fun _ _ _ _ => rfl) refs

private theorem routings_taskDestroy (t : TaskRef) (del : Bool) :
    (taskDestroy env config t del engine).storage.routings.Sublist engine.storage.routings := by
  unfold taskDestroy
  cases engine.task? t with
  | none => exact .refl _
  | some task =>
    simp only [Engine.withStorage, Storage.routings, chunks_inputChunkSetLimits]
    rw [storage_foldl_taskRetryDestroy]
    exact routings_inputChunkDestroy _ _ _

private theorem taskAlloc_some {t : TaskRef} (allocated : taskAlloc env engine = (some (t, id), after)) :
    id < tasksMapSize ∧ engine.tasksMap id = none ∧ t = engine.nextRef ∧
      after = mapSetTaskId id engine.nextRef { engine.tock with nextRef := engine.nextRef + 1 } := by
  unfold taskAlloc at allocated
  split at allocated
  · cases allocated
  · simp only at allocated
    split at allocated
    · cases allocated
    · next found =>
      cases allocated
      obtain ⟨bounded, free⟩ := mapGetTaskId_some found
      exact ⟨bounded, free, rfl, rfl⟩

private theorem taskAlloc_none (refused : taskAlloc env engine = (none, after)) : after = engine.tock := by
  unfold taskAlloc at refused
  split at refused
  · cases refused
    rfl
  · simp only at refused
    split at refused
    · cases refused
      rfl
    · cases refused

private theorem routeTask_effect {engine linked : Engine}
    (allocated : ∀ t ∈ engine.life.taskRefs, t < engine.life.nextRef)
    {task : Task} (fresh : Fresh engine task) (shape : linked.life = engine.life.create task) (ic : InputChunk) :
    (routeTask env config ic task.ref linked).1 ≠ .failed true ∧
      (∃ routes : List TaskRoute, (routes.map (·.out)).Sublist (taskOutputs config ic.routing) ∧
        ((routeTask env config ic task.ref linked).2.life = engine.life.create { task with routes } ∨
          (routeTask env config ic task.ref linked).2.life =
            (engine.life.create { task with routes }).destroy { task with routes })) ∧
      (routeTask env config ic task.ref linked).2.storage.routings.Sublist linked.storage.routings := by
  have routed : ∀ (routes : List TaskRoute) (current : Engine), current.life = linked.life →
      (current.setTask task.ref fun task => { task with routes }).life = engine.life.create { task with routes } :=
    fun routes current same => (created_routes allocated fresh (same.trans shape) routes).1
  have undone : ∀ (routes : List TaskRoute) (current : Engine), current.life = linked.life →
      (taskDestroy env config task.ref true (current.setTask task.ref fun task => { task with routes })).life =
          (engine.life.create { task with routes }).destroy { task with routes } := by
    intro routes current same
    obtain ⟨life, found⟩ := created_routes allocated fresh (same.trans shape) routes
    rw [life_taskDestroy _ found, life]
  have kept : ∀ (routes : List TaskRoute) (current : Engine), current.storage = linked.storage →
      (taskDestroy env config task.ref true
        (current.setTask task.ref fun task => { task with routes })).storage.routings.Sublist
          linked.storage.routings := by
    intro routes current same
    rw [← same]
    exact routings_taskDestroy _ _
  unfold routeTask
  split
  · next indirect =>
    obtain ⟨life, storage, added, sublist, outs⟩ := @maskRoutes_spec env ic config.outputs [] linked
    have within : ((maskRoutes env ic config.outputs [] linked).1.map (·.out)).Sublist
        (taskOutputs config ic.routing) := by
      rw [outs]
      simp only [taskOutputs, InputChunk.routing, indirect]
      exact sublist
    simp only
    split
    · exact ⟨by simp, ⟨_, within, .inr (undone _ _ life)⟩, kept _ _ storage⟩
    · refine ⟨by simp, ⟨_, within, .inl (routed _ _ life)⟩, ?_⟩
      show (maskRoutes env ic config.outputs [] linked).2.storage.routings.Sublist _
      rw [storage]
  · next direct =>
    obtain ⟨life, storage, added, sublist, outs⟩ := @directRoutes_spec env (config.routesDirect ic.ins) [] linked
    have within : ((directRoutes env (config.routesDirect ic.ins) [] linked).2.1.map (·.out)).Sublist
        (taskOutputs config ic.routing) := by
      rw [outs]
      cases listed : config.routesDirect ic.ins with
      | nil => exact absurd listed direct
      | cons first rest =>
        rw [listed] at sublist
        simp only [taskOutputs, InputChunk.routing, listed]
        exact sublist
    rcases routing : directRoutes env (config.routesDirect ic.ins) [] linked with ⟨_ | _, routes, current⟩
    · rw [routing] at life storage within
      exact ⟨by simp, ⟨routes, within, .inr (undone routes current life)⟩, kept routes current storage⟩
    · rw [routing] at life storage within
      refine ⟨by simp, ⟨routes, within, .inl (routed routes current life)⟩, ?_⟩
      show current.storage.routings.Sublist _
      rw [← storage]

theorem taskCreate_effect {engine : Engine} (allocated : ∀ t ∈ engine.life.taskRefs, t < engine.life.nextRef)
    (ic : InputChunk) : ((taskCreate env config ic engine).1 = .failed true ∧
      (taskCreate env config ic engine).2.storage = engine.storage ∧
      ((taskCreate env config ic engine).2.life = engine.life ∨
        env.Refuses .eventChunkCreate ∧ ∃ id < tasksMapSize, engine.tasksMap id = none ∧
          (taskCreate env config ic engine).2.life = engine.life.leakSlot id)) ∨
    ((taskCreate env config ic engine).1 ≠ .failed true ∧
      (∃ task : Task, Fresh engine task ∧ (task.routes.map (·.out)).Sublist (taskOutputs config ic.routing) ∧
        ((taskCreate env config ic engine).2.life = engine.life.create task ∨
          (taskCreate env config ic engine).2.life = (engine.life.create task).destroy task)) ∧
      (taskCreate env config ic engine).2.storage.routings.Sublist engine.storage.routings) := by
  unfold taskCreate
  rcases slot : taskAlloc env engine with ⟨_ | ⟨t, id⟩, after⟩
  · have shape := taskAlloc_none slot
    subst shape
    exact .inl ⟨rfl, rfl, .inl rfl⟩
  obtain ⟨bounded, free, fresh, shape⟩ := taskAlloc_some slot
  subst shape fresh
  simp only
  split
  · next answer =>
    exact .inl ⟨rfl, rfl, .inr ⟨Engine.refuses_of_answers (by simpa using answer), id, bounded, free, rfl⟩⟩
  · let task : Task :=
      { ref := engine.nextRef, id, status := .new, users := 0, records := ic.totalRecords, routes := [],
        ins := ic.ins, ic := ic.ref }
    have isFresh : Fresh engine task := ⟨rfl, rfl, rfl, bounded, free⟩
    obtain ⟨succeeded, ⟨routes, within, effect⟩, sublist⟩ := @routeTask_effect env config engine
      (linkTask ic engine.nextRef id
        (mapSetTaskId id engine.nextRef { engine.tock with nextRef := engine.nextRef + 1 }).tock)
      allocated task isFresh rfl ic
    refine .inr ⟨succeeded, ⟨{ task with routes }, ⟨rfl, rfl, rfl, bounded, free⟩, within, effect⟩, sublist.trans ?_⟩
    have linked := Storage.routings_setChunk (fun ic => { ic with task := some engine.nextRef }) (fun _ => rfl)
      engine.storage ic.ref
    exact linked ▸ .refl _

private theorem taskCreate_moves {engine : Engine} (sound : Sound ([], engine.life)) (ic : InputChunk)
    (allowed : ∀ outs, outs.Sublist (taskOutputs config ic.routing) → rules.creates outs) :
    Moves env config rules ([], engine.life) ([], (taskCreate env config ic engine).2.life) ∧
      (taskCreate env config ic engine).2.storage.routings.Sublist engine.storage.routings := by
  rcases @taskCreate_effect env config engine sound.allocated ic with
    ⟨-, storage, same | ⟨refused, id, bounded, free, leaked⟩⟩ | ⟨-, ⟨task, fresh, within, effect⟩, sublist⟩
  · rw [same, storage]
    exact ⟨.refl, .refl _⟩
  · rw [leaked, storage]
    exact ⟨.single (.leaked refused bounded free), .refl _⟩
  · refine ⟨?_, sublist⟩
    have created : Move env config rules ([], engine.life) ([], engine.life.create task) :=
      .created fresh.ref fresh.status fresh.users fresh.bounded fresh.free (allowed _ within)
    rcases effect with kept | undone
    · rw [kept]
      exact .single created
    · rw [undone]
      exact .tail (.single created) (.destroyed (task?_create sound.allocated fresh.ref) fresh.users)

end Create

section Chunks

private theorem dispatchChunk_moves {engine : Engine} (sound : Sound ([], engine.life)) (c : ChunkRef)
    (allowed : ∀ routing ∈ engine.storage.routings, ∀ outs,
      outs.Sublist (taskOutputs config routing) → rules.creates outs) :
    Moves env config rules ([], engine.life) ([], (dispatchChunk env config c engine).life) ∧
      (dispatchChunk env config c engine).storage.routings.Sublist engine.storage.routings := by
  have released : ∀ engine : Engine,
      (engine.withStorage (inputChunkReleaseLock c)).storage.routings = engine.storage.routings := fun engine =>
    Storage.routings_setChunk (fun ic => { ic with busy := false }) (fun _ => rfl) _ _
  have flushLife := @life_inputChunkFlush env config engine c
  have flushRoutings := @routings_inputChunkFlush env config engine c
  unfold dispatchChunk
  simp only
  rcases content : inputChunkFlush env config c engine with ⟨_ | _ | size, ready⟩
  · rw [content] at flushLife flushRoutings
    simp only at flushLife flushRoutings ⊢
    rw [life_withStorage, flushLife, released, flushRoutings]
    exact ⟨.refl, .refl _⟩
  · rw [content] at flushLife flushRoutings
    simp only at flushLife flushRoutings ⊢
    rw [life_withStorage, flushLife, released, flushRoutings]
    exact ⟨.refl, .refl _⟩
  · rw [content] at flushLife flushRoutings
    simp only at flushLife flushRoutings ⊢
    rw [← flushLife, ← flushRoutings]
    rw [← flushLife] at sound
    rw [← flushRoutings] at allowed
    cases found : ready.storage.chunk? c with
    | none => exact ⟨.refl, .refl _⟩
    | some ic =>
      simp only
      split
      · rw [released]
        exact ⟨.refl, .refl _⟩
      · have member : ic.routing ∈ ready.storage.routings := mem_map_of_mem (Storage.chunk?_some found).1
        obtain ⟨moves, sublist⟩ := @taskCreate_moves env config rules ready.tock sound ic (allowed _ member)
        rcases created : taskCreate env config ic ready.tock with ⟨result, after⟩
        rw [created] at moves sublist
        simp only at moves sublist
        rcases result with t | _ | _
        · exact ⟨moves, sublist⟩
        · exact ⟨moves, sublist⟩
        · refine ⟨moves, ?_⟩
          have down := routings_setCio (after.withStorage (inputChunkReleaseLock c)).storage c CioChunk.down
          exact (down.trans (released after)) ▸ sublist

private theorem dispatchChunks_moves (refs : List ChunkRef) {engine : Engine} (sound : Sound ([], engine.life))
    (allowed : ∀ routing ∈ engine.storage.routings, ∀ outs,
      outs.Sublist (taskOutputs config routing) → rules.creates outs) :
    Moves env config rules ([], engine.life) ([], (dispatchChunks env config refs engine).life) := by
  induction refs generalizing engine with
  | nil => exact .refl
  | cons c rest ih =>
    unfold dispatchChunks
    cases engine.storage.chunk? c with
    | none => exact ih sound allowed
    | some ic =>
      simp only
      split
      · exact ih sound allowed
      · split
        · exact .refl
        · obtain ⟨moves, sublist⟩ := @dispatchChunk_moves env config rules engine sound c allowed
          exact moves.trans (ih (sound.run moves) fun routing member => allowed routing (sublist.subset member))

end Chunks

section Start

def TouchedIn (t : TaskRef) (history : List Action) : Prop :=
  ∃ o, .flushStarted o t ∈ history ∨ .enqueued o t ∈ history ∨
    .flushFailed o t ∈ history ∨ .enqueueFailed o t ∈ history

variable {retrying : Bool} {t : TaskRef}

private theorem startRoutes_hits (outs : List OutId) (hits : Nat) (engine : Engine) :
    hits ≤ (startRoutes env config retrying t outs hits engine).1 := by
  induction outs generalizing hits engine with
  | nil => exact Nat.le_refl _
  | cons o rest ih =>
    have first : hits ≤ (startRoute env config retrying t o hits engine).1 := by
      unfold startRoute
      split
      · exact Nat.le_refl _
      · split
        · exact Nat.le_refl _
        · split
          · exact le_succ _
          · exact le_succ _
    exact first.trans (ih _ _)

private theorem startRoute_opened {o : OutId} (tested : config.isTestMode o = false) {engine : Engine}
    (taken : skipsRoute config retrying o engine = false) (hits : Nat) (frames : List Frame) :
    (startRoute env config retrying t o hits engine).1 = hits + 1 ∧
      Moves env config rules (.route t o :: frames, engine.life)
        (frames, (startRoute env config retrying t o hits engine).2.life) ∧
      TouchedIn t (startRoute env config retrying t o hits engine).2.history := by
  unfold startRoute
  simp only [tested, taken, false_eq_true, if_false]
  cases synchronous : config.isSynchronous o with
  | true =>
    obtain ⟨moves, touched, -⟩ := @outputTaskSingleplexEnqueue_spec env config rules o synchronous t none engine
    refine ⟨rfl, .head .routeOpened (moves frames), o, ?_⟩
    rcases touched with queued | refused
    · exact .inr (.inl queued)
    · exact .inr (.inr (.inr refused))
  | false =>
    obtain ⟨advanced, touched⟩ := @outputTaskFlushNow_spec env config rules o synchronous t none engine
    refine ⟨rfl, .head .routeOpened ?_, o, ?_⟩
    · have moves := advanced.moves frames
      simp only [false_eq_true, if_false]
      split at moves
      · exact moves
      · exact moves.tail .undoomed
    · rcases touched with started | failed
      · exact .inl started
      · exact .inr (.inr (.inl failed))

private theorem startRoutes_moves (outs visited rest : List OutId) (split : outs = visited ++ rest) (hits : Nat)
    (engine : Engine) (earlier : 0 < hits → visited ≠ []) (touched : 0 < hits → TouchedIn t engine.history)
    (started : 0 < (startRoutes env config retrying t rest hits engine).1) :
    Moves env config rules (rest.map (Frame.route t) ++ [.starting t outs], engine.life)
        ([.starting t outs], (startRoutes env config retrying t rest hits engine).2.life) ∧
      TouchedIn t (startRoutes env config retrying t rest hits engine).2.history := by
  induction rest generalizing visited hits engine with
  | nil => exact ⟨.refl, touched started⟩
  | cons o rest ih =>
    have later : outs = (visited ++ [o]) ++ rest := by rw [split, append_assoc, singleton_append]
    have nonempty : visited ++ [o] ≠ [] := by simp
    simp only [startRoutes] at started ⊢
    cases tested : config.isTestMode o with
    | true =>
      have shape : startRoute env config retrying t o hits engine = (hits, engine.setTask t fun task =>
          { task with routes := task.routes.eraseP (·.out = o) }) := by
        simp [startRoute, tested]
      rw [shape] at started ⊢
      obtain ⟨moves, touches⟩ := ih (visited ++ [o]) later hits
        (engine.setTask t fun task => { task with routes := task.routes.eraseP (·.out = o) })
        (fun _ => nonempty) touched started
      exact ⟨.head .routeErased moves, touches⟩
    | false =>
      cases taken : skipsRoute config retrying o engine with
      | true =>
        have shape : startRoute env config retrying t o hits engine = (hits, engine) := by
          simp [startRoute, tested, taken]
        rw [shape] at started ⊢
        obtain ⟨moves, touches⟩ := ih (visited ++ [o]) later hits engine (fun _ => nonempty) touched started
        refine ⟨.head (.routeLost (mem_append_right _ (mem_singleton_self _)) ?_ ?_ ?_) moves, touches⟩
        · simp only [skipsRoute, and_eq_true] at taken
          exact taken.1
        · simp [split]
        · -- either a route before this one was hit or one after it will be
          rw [split]
          rcases Nat.eq_zero_or_pos hits with rfl | positive
          · cases rest with
            | nil => simp [startRoutes] at started
            | cons next others =>
              simp only [length_append, length_cons]
              omega
          · have := length_pos_iff.mpr (earlier positive)
            simp only [length_append, length_cons]
            omega
      | false =>
        obtain ⟨count, first, touch⟩ := @startRoute_opened env config rules retrying t o tested engine taken
          hits (rest.map (Frame.route t) ++ [.starting t outs])
        obtain ⟨moves, touches⟩ := ih (visited ++ [o]) later _ _ (fun _ => nonempty) (fun _ => touch) started
        exact ⟨first.trans moves, touches⟩

private theorem startRoutes_unhit (outs : List OutId) (engine : Engine)
    (unhit : (startRoutes env config retrying t outs 0 engine).1 = 0) :
    (startRoutes env config retrying t outs 0 engine).2.life =
      (outs.filter config.isTestMode).foldl (fun life o => life.eraseRoute t o) engine.life := by
  induction outs generalizing engine with
  | nil => rfl
  | cons o rest ih =>
    simp only [startRoutes] at unhit ⊢
    have none : (startRoute env config retrying t o 0 engine).1 = 0 := by
      have := @startRoutes_hits env config retrying t rest (startRoute env config retrying t o 0 engine).1
        (startRoute env config retrying t o 0 engine).2
      omega
    rw [none] at unhit ⊢
    rw [ih _ unhit]
    cases tested : config.isTestMode o with
    | true =>
      rw [filter_cons_of_pos tested, foldl_cons]
      simp only [startRoute, tested, if_true]
      rfl
    | false =>
      rw [filter_cons_of_neg (by simp [tested])]
      cases taken : skipsRoute config retrying o engine with
      | true => simp [startRoute, tested, taken]
      | false =>
        exfalso
        have := (@startRoute_opened env config ⟨fun _ => True, True, fun _ => True, True, True⟩ retrying t o
          tested engine taken 0 []).1
        omega

private theorem setStatus_eraseRoute (o : OutId) (status : TaskStatus) (life : Life) :
    (life.eraseRoute t o).setStatus t status = (life.setStatus t status).eraseRoute t o := by
  have tasks : Tally.replace Task.ref t (fun task => { task with status })
      (Tally.replace Task.ref t (fun task => { task with routes := task.routes.eraseP (·.out = o) }) life.tasks) =
        Tally.replace Task.ref t (fun task => { task with routes := task.routes.eraseP (·.out = o) })
          (Tally.replace Task.ref t (fun task => { task with status }) life.tasks) := by
    rw [replace_replace, replace_replace]
    · rfl
    · intro task
      rfl
    · intro task
      rfl
  simp [setStatus, eraseRoute, setTask, tasks]

private theorem setStatus_eraseRoutes (outs : List OutId) (status : TaskStatus) (life : Life) :
    (outs.foldl (fun life o => life.eraseRoute t o) life).setStatus t status =
      outs.foldl (fun life o => life.eraseRoute t o) (life.setStatus t status) := by
  induction outs generalizing life with
  | nil => rfl
  | cons o rest ih => rw [foldl_cons, foldl_cons, ih, setStatus_eraseRoute]

private theorem eraseRoutes_moves (outs : List OutId) (life : Life) :
    Moves env config rules ([], life) ([], outs.foldl (fun life o => life.eraseRoute t o) life) := by
  induction outs generalizing life with
  | nil => exact .refl
  | cons o rest ih => exact .head .erased (ih _)

private theorem setStatus_again {life : Life} (distinct : life.taskRefs.Nodup) {task : Task}
    (found : life.task? t = some task) (isNew : task.status = .new) :
    (life.setStatus t .running).setStatus t .new = life := by
  obtain ⟨member, same⟩ := task?_some found
  have tasks : Tally.replace Task.ref t (fun task => { task with status := .new })
      (Tally.replace Task.ref t (fun task => { task with status := .running }) life.tasks) = life.tasks := by
    rw [replace_replace]
    · refine replace_eq_self fun other listed equal => ?_
      have identical : other = task := inj_on_of_nodup_map distinct listed member (equal.trans same.symm)
      subst identical
      simp only [Function.comp_apply]
      rw [← isNew]
    · intro task
      rfl
  simp [setStatus, setTask, tasks]

private theorem startTask_moves {engine : Engine} (sound : Sound ([], engine.life)) (t : TaskRef) (retrying : Bool) :
    Moves env config rules ([], engine.life) ([], (startTask env config t retrying engine).2.life) := by
  unfold startTask
  cases found : engine.task? t with
  | none => exact .refl
  | some task =>
    simp only
    split
    · exact .refl
    · next status =>
      have isNew : task.status = .new := by simpa using status
      have same : task.ref = t := (@task?_some engine.life t task found).2
      rcases started : startRoutes env config (retrying || !engine.noRetries t) t (task.routes.map (·.out)) 0
        (setTaskStatus t .running engine) with ⟨_ | hits, after⟩
      · have unhit := @startRoutes_unhit env config _ t _ _ (congrArg Prod.fst started)
        rw [started] at unhit
        have shape : (setTaskStatus t .new after).life =
            ((task.routes.map (·.out)).filter config.isTestMode).foldl (fun life o => life.eraseRoute t o)
              engine.life := by
          calc (setTaskStatus t .new after).life = after.life.setStatus t .new := rfl
            _ = (((task.routes.map (·.out)).filter config.isTestMode).foldl
                  (fun life o => life.eraseRoute t o) (engine.life.setStatus t .running)).setStatus t .new := by
                rw [unhit]
                rfl
            _ = _ := by
                rw [setStatus_eraseRoutes, setStatus_again sound.distinct found isNew]
        rw [started]
        simp only
        rw [shape]
        exact eraseRoutes_moves _ _
      · have positive : 0 < (startRoutes env config (retrying || !engine.noRetries t) t
            (task.routes.map (·.out)) 0 (setTaskStatus t .running engine)).1 := by
          rw [started]
          exact succ_pos _
        obtain ⟨moves, o, touched⟩ := @startRoutes_moves env config rules _ t (task.routes.map (·.out)) []
          (task.routes.map (·.out)) rfl 0 (setTaskStatus t .running engine) (fun impossible => by cases impossible)
          (fun impossible => by cases impossible) positive
        rw [started] at moves touched
        have run : Move env config rules ([], engine.life) _ := .run (same ▸ found) isNew
        rw [same] at run
        rw [map_map] at moves
        rw [started]
        exact (Relation.ReflTransGen.head run moves).tail (.begun touched)

private theorem startTasks_moves (refs : List TaskRef) (retrying : Bool) {engine : Engine}
    (sound : Sound ([], engine.life)) :
    Moves env config rules ([], engine.life) ([], (startTasks env config refs retrying engine).life) := by
  induction refs generalizing retrying engine with
  | nil => exact .refl
  | cons t rest ih =>
    have first := @startTask_moves env config rules engine sound t retrying
    exact first.trans (ih _ (sound.run first))

end Start

section Dispatch

private theorem cleanupTask_moves (t : TaskRef) (engine : Engine) :
    Moves env config rules ([], engine.life) ([], (cleanupTask env config t engine).life) := by
  unfold cleanupTask
  cases found : engine.task? t with
  | none => exact .refl
  | some task =>
    simp only
    split
    · next idle =>
      simp only [taskIsIdle, and_eq_true, decide_eq_true_eq] at idle
      have same : task.ref = t := (@task?_some engine.life t task found).2
      rw [life_taskDestroy engine found]
      exact .single (.destroyed (same ▸ found) idle.1.1)
    · exact .refl

private theorem foldl_cleanupTask_moves (refs : List TaskRef) (engine : Engine) :
    Moves env config rules ([], engine.life)
      ([], (refs.foldl (fun engine t => cleanupTask env config t engine) engine).life) := by
  induction refs generalizing engine with
  | nil => exact .refl
  | cons t rest ih => exact (cleanupTask_moves t engine).trans (ih _)

theorem engineDispatch_moves {engine : Engine} (sound : Sound ([], engine.life)) (i : InputId)
    (allowed : ∀ routing ∈ engine.storage.routings, ∀ outs,
      outs.Sublist (taskOutputs config routing) → rules.creates outs) :
    Moves env config rules ([], engine.life) ([], (engineDispatch env config i engine).life) := by
  have chunks := @dispatchChunks_moves env config rules ((engine.storage.inputChunks i).map (·.ref)) engine sound
    allowed
  have started := @startTasks_moves env config rules
    (((dispatchChunks env config ((engine.storage.inputChunks i).map (·.ref)) engine).inputTasks i).map (·.ref))
    false _ (sound.run chunks)
  exact (chunks.trans started).trans (foldl_cleanupTask_moves _ _)

end Dispatch

end FluentBit
