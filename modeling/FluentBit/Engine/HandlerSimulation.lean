import FluentBit.Engine.Simulation
import FluentBit.Storage.ChunkProperties

/-! Flush results, retry timers, coroutines and the stop event as sequences of
moves. -/

set_option autoImplicit false

namespace FluentBit

open List Bool Life

variable {env : Env} {config : Config} {rules : Rules}

section Results

variable {t : TaskRef} {o : OutId}

private theorem finishRoute_moves (engine : Engine) :
    Moves env config rules ([.closing t o], engine.life) ([], (finishRoute env config t o engine).life) := by
  have shape : (finishRoute env config t o engine).life = ((engine.life.retryClean t o).dismiss t).release t := by
    unfold finishRoute taskUsersDecRelease
    rw [life_taskUsersRelease, life_taskUsersDec, life_taskRetryClean]
  rw [shape]
  exact .single .finished

private theorem retryRoute_moves (retries : config.retryLimit o ≠ 0) (engine : Engine) :
    Moves env config rules ([.result t o], engine.life) ([], (retryRoute env config t o engine).life) := by
  unfold retryRoute
  rcases created : taskRetryCreate env config t o engine with ⟨_ | r, after⟩
  · simp only
    have closing : Moves env config rules ([.result t o], engine.life)
        ([.closing t o], (after.record (.recordsDropped o t)).life) := by
      rw [life_record]
      rcases taskRetryCreate_none created with ⟨retry, found, same⟩ | same
      · rw [same]
        exact .single (.limitReached found)
      · rw [same]
        exact .single .dropped
    exact closing.trans (finishRoute_moves _)
  · simp only
    have unscheduled : Moves env config rules ([.result t o], engine.life)
        ([.unscheduled t o r], (taskUsersDec t after).life) := by
      rw [life_taskUsersDec]
      rcases taskRetryCreate_some created with ⟨retry, found, rfl, remaining, same⟩ | ⟨missing, rfl, same⟩
      · rw [same]
        exact .single (.retriedAgain found remaining)
      · rw [same]
        exact .single (.retriedFirst missing retries)
    refine unscheduled.trans ?_
    rcases requested : schedRequestCreate env r (taskUsersDec t after) with ⟨_ | seconds, scheduled⟩
    · simp only
      rw [life_taskUsersRelease, life_taskRetryDestroy]
      exact (Moves.quiet (schedRequestCreate_none requested)).tail .unschedulable
    · simp only
      obtain ⟨request, fresh, data, quiet⟩ := schedRequestCreate_some requested
      exact .head (.scheduled fresh data) (Moves.quiet quiet)

private theorem handleOutputReturn_moves (ret : FlushReturn) (engine : Engine) :
    Moves env config rules (whenSynchronous config o ++ [.result t o], engine.life)
      ([], (handleOutputReturn env config ret t o engine).life) := by
  unfold handleOutputReturn
  simp only
  have advanced := @advanced_whenSynchronous env config rules _ (pendingSize engine o) o
    (fun synchronous => outputTaskSingleplexFlushNext_advances synchronous) engine (Nat.le_refl _)
  refine (advanced.moves [.result t o]).trans ?_
  simp only [nil_append]
  generalize (if config.isSynchronous o then outputTaskSingleplexFlushNext env config o engine else engine) = current
  cases ret with
  | ok => exact .head .delivered (finishRoute_moves current)
  | error => exact .head .dropped (finishRoute_moves (current.record (.recordsDropped o t)))
  | retry =>
    simp only
    split
    · exact .head .dropped (finishRoute_moves (current.record (.recordsDropped o t)))
    · next retries => exact retryRoute_moves retries current

theorem handleOutputEvent_moves (f : Nat) (engine : Engine) :
    Moves env config rules ([], engine.life) ([], (handleOutputEvent env config f engine).life) := by
  unfold handleOutputEvent
  cases found : engine.flushes.find? (·.ref = f) with
  | none => exact .refl
  | some flush =>
    simp only
    split
    · split
      · exact .refl
      · next slot =>
        have first : Move env config rules ([], engine.life) _ := .result found slot
        exact .head first (handleOutputReturn_moves _ { engine with flushes := engine.flushes.eraseP (·.ref = f) })
    · exact .refl

end Results

section Coroutines

private theorem setFlushPhase_moves {engine : Engine} {flush : OutputFlush} (member : flush ∈ engine.flushes)
    {phase : FlushPhase} (status : RouteStatus)
    (skips : phase = .skipped → ∃ o, config.isThreaded o = true ∧ env.Refuses (.flushCreate o)) :
    Moves env config rules ([], engine.life) ([], (setFlushPhase flush phase status engine).life) :=
  .single (.phase member skips)

theorem outputPreCbFlush_moves (f : Nat) (engine : Engine) :
    Moves env config rules ([], engine.life) ([], (outputPreCbFlush env config f engine).life) := by
  unfold outputPreCbFlush
  cases found : engine.flushes.find? (·.ref = f) with
  | none => exact .refl
  | some flush =>
    have member := mem_of_find?_eq_some found
    simp only
    split
    · split
      · next refused =>
        simp only [Bool.and_eq_true, Bool.not_eq_true'] at refused
        exact @setFlushPhase_moves env config rules engine.tock flush member _ _
          fun _ => ⟨_, refused.1, Engine.refuses_of_answers refused.2⟩
      · split
        · exact @setFlushPhase_moves env config rules engine.tock flush member _ _ nofun
        · split
          · exact @setFlushPhase_moves env config rules engine.tock flush member _ _ nofun
          · exact @setFlushPhase_moves env config rules engine.tock flush member _ _ nofun
    · exact .refl

theorem outputReturn_moves (f : Nat) (ret : FlushReturn) (engine : Engine) :
    Moves env config rules ([], engine.life) ([], (outputReturn f ret engine).life) := by
  unfold outputReturn
  cases found : engine.flushes.find? (·.ref = f) with
  | none => exact .refl
  | some flush =>
    simp only
    split
    · exact setFlushPhase_moves (mem_of_find?_eq_some found) _ nofun
    · exact .refl

end Coroutines

section Timers

variable {t : TaskRef} {o : OutId}

/-- The chunk of a retry is set up, but its content cannot be read. -/
def RetryUnread (env : Env) (config : Config) (retry : TaskRetry) (engine : Engine) : Prop :=
  ∃ task up, engine.task? retry.parent = some task ∧ inputChunkSetUp env task.ic engine = (true, up) ∧
    (inputChunkFlush env config task.ic up).1 = none

/-- The request of a timer is about a retry whose chunk cannot be read. -/
def TimerUnread (env : Env) (config : Config) (req : Nat) (engine : Engine) : Prop :=
  ∃ request retry, engine.requests.find? (·.ref = req) = some request ∧
    engine.retry? request.data = some retry ∧ RetryUnread env config retry engine

private theorem engineDispatchRetry_moves {engine : Engine} {retry : TaskRetry} (req : Nat)
    (live : ∃ task, engine.task? retry.parent = some task)
    (unread : RetryUnread env config retry engine → rules.unreads)
    (discipline : ∀ o, engine.pending.any (·.out = o) = true → engine.inProgress.any (·.out = o) = true) :
    Moves env config rules ([.attempt retry.parent retry.out (some retry.ref) false, .spent req retry.ref], engine.life)
        ([.spent req retry.ref], (engineDispatchRetry env config retry engine).2.life) ∧
      ((engineDispatchRetry env config retry engine).1 = false →
        ∀ kept ∈ (engineDispatchRetry env config retry engine).2.retries, kept.ref ≠ retry.ref) := by
  obtain ⟨task, found⟩ := live
  have destroyed : ∀ (engine : Engine) (kept : TaskRetry),
      kept ∈ (taskRetryDestroy retry.ref engine).retries → kept.ref ≠ retry.ref := by
    intro engine kept member
    have listed : kept ∈ (taskRetryDestroy retry.ref engine).life.retries := member
    rw [life_taskRetryDestroy] at listed
    exact (mem_retryDestroy.mp listed).2
  unfold engineDispatchRetry
  simp only [found]
  have upLife := @life_inputChunkSetUp env engine task.ic
  rcases raised : inputChunkSetUp env task.ic engine with ⟨_ | _, up⟩
  · rw [raised] at upLife
    simp only at upLife ⊢
    unfold taskRetryReschedule
    rcases requested : schedRequestCreate env retry.ref up with ⟨_ | seconds, scheduled⟩
    · simp only
      rw [life_taskUsersRelease, life_taskRetryDestroy, ← upLife]
      refine ⟨(Moves.quiet (schedRequestCreate_none requested)).tail .abandoned, ?_⟩
      intro _ kept member
      have listed : kept ∈ (taskUsersRelease env config retry.parent
          (taskRetryDestroy retry.ref scheduled)).life.retries := member
      rw [life_taskUsersRelease, release_eq] at listed
      exact destroyed scheduled kept listed
    · simp only
      obtain ⟨request, fresh, data, quiet⟩ := schedRequestCreate_some requested
      rw [← upLife]
      exact ⟨.head (.postponed fresh data) (Moves.quiet quiet), fun impossible => by cases impossible⟩
  · rw [raised] at upLife
    simp only at upLife ⊢
    have flushLife := @life_inputChunkFlush env config up task.ic
    rcases content : inputChunkFlush env config task.ic up with ⟨_ | size, ready⟩
    · rw [content] at flushLife
      simp only at flushLife ⊢
      rw [life_taskRetryDestroy, flushLife, ← upLife]
      have missing : RetryUnread env config retry engine := ⟨task, up, found, raised, by rw [content]⟩
      exact ⟨.tail (.single (.unreadable (unread missing))) .doomed, fun _ => destroyed ready⟩
    · rw [content] at flushLife
      simp only at flushLife ⊢
      have sameLife : ready.life = engine.life := flushLife.trans upLife
      rw [← sameLife]
      split
      · next synchronous =>
        obtain ⟨moves, -, failed⟩ := @outputTaskSingleplexEnqueue_spec env config rules retry.out synchronous
          retry.parent (some retry.ref) ready
        refine ⟨moves _, fun refused => failed refused ?_ _ rfl⟩
        have pending : ready.pending = engine.pending := congrArg pending sameLife
        have inProgress : ready.inProgress = engine.inProgress := congrArg inProgress sameLife
        rw [pending, inProgress]
        exact discipline retry.out
      · next direct =>
        obtain ⟨advanced, -⟩ := @outputTaskFlushNow_spec env config rules retry.out
          (eq_false_iff.mpr direct) retry.parent (some retry.ref) ready
        rcases flushed : outputTaskFlushNow env config retry.parent retry.out ready with ⟨_ | _, after⟩
        · rw [flushed] at advanced
          simp only
          rw [life_taskRetryDestroy]
          exact ⟨(advanced.moves _).tail .doomed, fun _ => destroyed after⟩
        · rw [flushed] at advanced
          exact ⟨advanced.moves _, fun impossible => by cases impossible⟩

/-- What a timer does is a run of moves. -/
theorem schedEventHandler_moves {engine : Engine} (sound : Sound ([], engine.life)) (req : Nat)
    (unread : TimerUnread env config req engine → rules.unreads) :
    Moves env config rules ([], engine.life) ([], (schedEventHandler env config req engine).life) := by
  unfold schedEventHandler
  cases found : engine.requests.find? (·.ref = req) with
  | none => exact .refl
  | some request =>
    simp only
    cases retryFound : engine.retry? request.data with
    | none => exact .refl
    | some retry =>
      simp only
      have requestMember : request ∈ engine.life.requests := mem_append_left _ (mem_of_find?_eq_some found)
      have requestRef : request.ref = req := by simpa using List.find?_some found
      have retryMember : retry ∈ engine.life.retries := mem_of_find?_eq_some retryFound
      have retryRef : retry.ref = request.data := by simpa using List.find?_some retryFound
      have live : retry.parent ∈ engine.life.taskRefs :=
        sound.live _ (Stage.mem_mentioned.mpr (.inr (.inr (.inl ⟨retry, retryMember, rfl⟩))))
      have discipline : ∀ o, engine.pending.any (·.out = o) = true → engine.inProgress.any (·.out = o) = true := by
        intro o waiting
        rcases sound.queues o waiting with busy | advancing
        · exact busy
        · simp at advancing
      have fired : Move env config rules ([], engine.life) _ := .fired requestMember retryMember retryRef.symm
      rw [requestRef] at fired
      obtain ⟨moves, failed⟩ := @engineDispatchRetry_moves env config rules engine retry req
        (task?_isSome live) (fun missing => unread ⟨request, retry, found, retryFound, missing⟩) discipline
      rcases dispatched : engineDispatchRetry env config retry engine with ⟨_ | _, after⟩
      · rw [dispatched] at moves failed
        exact (Relation.ReflTransGen.head fired moves).tail (.forgotten (failed rfl))
      · rw [dispatched] at moves
        refine (Relation.ReflTransGen.head fired moves).trans ?_
        have shape : (schedRequestDestroy req after).life = after.life.requestDestroy req := by
          simp [schedRequestDestroy, Engine.life, requestDestroy]
        simp only
        rw [shape]
        exact .single .spent

end Timers

section Stop

variable {engine : Engine}

private theorem tick_schedRequestInvalidate (r : RetryRef) (engine : Engine) :
    (schedRequestInvalidate r engine).tick = engine.tick := by
  unfold schedRequestInvalidate
  split <;> rfl

private theorem tick_rescheduleRetry (r : RetryRef) (engine : Engine) :
    ∃ spent ≤ rescheduleTicks, (rescheduleRetry env r engine).tick = engine.tick + spent := by
  rw [← tick_schedRequestInvalidate r engine]
  exact tick_schedRetryNow env r _

private theorem rescheduleRetry_moves {retry : TaskRetry} (allowed : rules.reschedules engine.life)
    (refuses : ∀ elapsed < rescheduleTicks, env.RefusesTimer (engine.tick + elapsed) → rules.refuses)
    (listed : retry ∈ engine.retries) :
    Moves env config rules ([], engine.life) ([], (rescheduleRetry env retry.ref engine).life) := by
  have invalidated := life_schedRequestInvalidate engine retry.ref
  unfold rescheduleRetry
  rcases scheduled : schedRetryNow env retry.ref (schedRequestInvalidate retry.ref engine) with ⟨_ | _, after⟩
  · obtain ⟨quiet, elapsed, soon, refused⟩ := schedRetryNow_false scheduled
    rw [invalidated] at quiet
    rw [tick_schedRequestInvalidate] at refused
    exact .head (.rescheduleRefused allowed listed (refuses elapsed soon refused)) (Moves.quiet quiet)
  · obtain ⟨request, fresh, data, quiet⟩ := schedRetryNow_true scheduled
    have ref : request.ref = engine.life.nextRef := fresh.trans (congrArg nextRef invalidated)
    rw [invalidated] at quiet
    exact .head (.rescheduled allowed listed ref data) (Moves.quiet quiet)

private theorem rescheduleRetry_same (r : RetryRef) (engine : Engine) :
    (rescheduleRetry env r engine).life.retries = engine.life.retries ∧
      (rescheduleRetry env r engine).life.pending = engine.life.pending ∧
      (rescheduleRetry env r engine).life.flushes = engine.life.flushes := by
  have invalidated := life_schedRequestInvalidate engine r
  unfold rescheduleRetry
  rcases scheduled : schedRetryNow env r (schedRequestInvalidate r engine) with ⟨_ | _, after⟩
  · obtain ⟨quiet, -⟩ := schedRetryNow_false scheduled
    rw [invalidated] at quiet
    exact ⟨quiet.retries, quiet.pending, quiet.flushes⟩
  · obtain ⟨request, -, -, quiet⟩ := schedRetryNow_true scheduled
    rw [invalidated] at quiet
    exact ⟨quiet.retries, quiet.pending, quiet.flushes⟩

private theorem foldl_rescheduleRetry_moves {start : Engine}
    (allowed : ∀ life : Life, life.retries = start.retries → life.pending = start.pending →
      life.flushes = start.flushes → rules.reschedules life)
    (refs : List RetryRef) (listed : ∀ r ∈ refs, ∃ retry ∈ start.retries, retry.ref = r) (engine : Engine)
    (refuses : ∀ tick < engine.tick + rescheduleTicks * refs.length, engine.tick ≤ tick → env.RefusesTimer tick →
      rules.refuses) (retries : engine.life.retries = start.retries)
    (pending : engine.life.pending = start.pending) (flushes : engine.life.flushes = start.flushes) :
    Moves env config rules ([], engine.life)
      ([], (refs.foldl (fun engine r => rescheduleRetry env r engine) engine).life) := by
  induction refs generalizing engine with
  | nil => exact .refl
  | cons r rest ih =>
    obtain ⟨retry, member, rfl⟩ := listed r (mem_cons_self ..)
    obtain ⟨sameRetries, samePending, sameFlushes⟩ := @rescheduleRetry_same env retry.ref engine
    rw [← retries] at member
    obtain ⟨spent, few, later⟩ := @tick_rescheduleRetry env retry.ref engine
    have first := @rescheduleRetry_moves env config rules engine retry (allowed _ retries pending flushes)
      (fun elapsed soon => refuses _ (by simp only [length_cons, Nat.mul_add_one]; omega) (Nat.le_add_right _ _)) member
    refine first.trans (ih (fun r included => listed r (mem_cons_of_mem _ included)) _ ?_
      (sameRetries.trans retries) (samePending.trans pending) (sameFlushes.trans flushes))
    intro tick late early
    exact refuses tick (by simp only [length_cons, Nat.mul_add_one]; omega) (by omega)

/-- The stop is the first, and a request for a timer of a retry is refused. -/
def StopRefused (env : Env) (config : Config) (engine : Engine) : Prop :=
  engine.graceCount = 0 ∧ ∃ tick < engine.tick + rescheduleTicks * (scheduledRetries config engine).length,
    engine.tick ≤ tick ∧ env.RefusesTimer tick

/-- What the stop of the engine does is a run of moves. -/
theorem engineStop_moves (allowed : engine.graceCount = 0 → ∀ life : Life, life.retries = engine.retries →
      life.pending = engine.pending → life.flushes = engine.flushes → rules.reschedules life)
    (refused : StopRefused env config engine → rules.refuses) :
    Moves env config rules ([], engine.life) ([], (engineStop env config engine).life) := by
  unfold engineStop
  split
  · next first =>
    refine foldl_rescheduleRetry_moves (allowed first) (scheduledRetries config engine) ?_ engine
      (fun tick late early refuses => refused ⟨first, tick, late, early, refuses⟩) rfl rfl rfl
    intro r member
    simp only [scheduledRetries, mem_flatMap, mem_map, mem_filter] at member
    obtain ⟨-, -, -, -, retry, ⟨listed, -⟩, same⟩ := member
    exact ⟨retry, listed, same⟩
  · exact .refl

end Stop

end FluentBit
