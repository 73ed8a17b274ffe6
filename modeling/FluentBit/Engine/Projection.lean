import FluentBit.Engine.OwnershipProperties

/-! What the functions of the engine do to the life-cycle machine, one lemma for
each function. Functions on chunks leave it alone. -/

set_option autoImplicit false

namespace FluentBit

open List Nat Life

variable {env : Env} {config : Config}

section Engine

variable (engine : Engine)

@[simp] theorem life_tock : engine.tock.life = engine.life := rfl

@[simp] theorem life_record (action : Action) : (engine.record action).life = engine.life.act action := rfl

@[simp] theorem life_withStorage (change : Storage → Storage) : (engine.withStorage change).life = engine.life := rfl

@[simp] theorem life_setTask (t : TaskRef) (change : Task → Task) :
    (engine.setTask t change).life = engine.life.setTask t change := rfl

theorem life_taskUsersInc (t : TaskRef) : (taskUsersInc t engine).life = engine.life.acquire t := rfl

theorem life_taskUsersDec (t : TaskRef) : (taskUsersDec t engine).life = engine.life.dismiss t := rfl

theorem task?_life (t : TaskRef) : engine.life.task? t = engine.task? t := rfl

private theorem findRetry_life (t : TaskRef) (o : OutId) : engine.life.findRetry t o =
    engine.retries.find? fun retry => decide (retry.parent = t ∧ retry.out = o) := rfl

theorem life_schedRequestInvalidate (r : RetryRef) :
    (schedRequestInvalidate r engine).life = engine.life.invalidate r := by
  unfold schedRequestInvalidate
  cases found : engine.requests.find? (·.data = r) with
  | some request =>
    have member := mem_of_find?_eq_some found
    have same := List.find?_some found
    have erased := eraseP_append_left (p := fun request => decide (request.data = r)) same engine.requestsWait member
    simp [Engine.life, invalidate, erased]
  | none =>
    have absent := List.find?_eq_none.mp found
    simp [Engine.life, invalidate, eraseP_append_right _ absent]

theorem life_taskRetryDestroy (r : RetryRef) : (taskRetryDestroy r engine).life = engine.life.retryDestroy r := by
  have invalidated := life_schedRequestInvalidate engine r
  have retries : (schedRequestInvalidate r engine).retries = engine.retries := congrArg retries invalidated
  calc (taskRetryDestroy r engine).life
      = { (schedRequestInvalidate r engine).life with
          retries := (schedRequestInvalidate r engine).retries.filter (·.ref ≠ r) } := rfl
    _ = engine.life.retryDestroy r := by rw [invalidated, retries]; rfl

private theorem life_foldl_taskRetryDestroy (refs : List RetryRef) :
    (refs.foldl (fun engine r => taskRetryDestroy r engine) engine).life =
      refs.foldl (fun life r => life.retryDestroy r) engine.life := by
  induction refs generalizing engine with
  | nil => rfl
  | cons r rest ih => rw [foldl_cons, foldl_cons, ih, life_taskRetryDestroy]

theorem life_inputChunkDestroy (c : ChunkRef) (del : Bool) :
    (inputChunkDestroy env config c del engine).life = engine.life := by
  unfold inputChunkDestroy
  cases engine.storage.chunk? c with
  | none => rfl
  | some ic => rfl

theorem life_taskDestroy {t : TaskRef} {task : Task} (found : engine.task? t = some task) (del : Bool) :
    (taskDestroy env config t del engine).life = engine.life.destroy task := by
  obtain ⟨-, same⟩ := @task?_some engine.life t task found
  subst same
  simp only [taskDestroy, found]
  rw [life_withStorage, life_foldl_taskRetryDestroy, life_inputChunkDestroy]
  have retries : ∀ freed : Engine,
      (inputChunkDestroy env config task.ic del freed).retries = freed.retries := fun freed =>
    congrArg retries (life_inputChunkDestroy freed task.ic del)
  rw [retries]
  rfl

theorem life_taskUsersRelease (t : TaskRef) : (taskUsersRelease env config t engine).life = engine.life.release t := by
  unfold taskUsersRelease release
  rw [task?_life]
  cases found : engine.task? t with
  | none => rfl
  | some task =>
    have same : taskIsIdle engine task = engine.life.isIdle task := rfl
    simp only [same]
    cases engine.life.isIdle task with
    | false => rfl
    | true =>
      simp only [if_true]
      rw [life_taskDestroy (engine.record (.taskReleased task)) found]
      rfl

theorem life_taskRetryClean (t : TaskRef) (o : OutId) :
    (taskRetryClean t o engine).life = engine.life.retryClean t o := by
  unfold taskRetryClean retryClean
  rw [findRetry_life]
  cases engine.retries.find? fun retry => decide (retry.parent = t ∧ retry.out = o) with
  | none => rfl
  | some retry => exact life_taskRetryDestroy engine retry.ref

theorem life_inputChunkSetUp (c : ChunkRef) : (inputChunkSetUp env c engine).2.life = engine.life := by
  unfold inputChunkSetUp
  cases engine.storage.chunk? c with
  | none => rfl
  | some ic =>
    simp only
    split
    · rfl
    · split <;> rfl

theorem life_inputChunkFlush (c : ChunkRef) : (inputChunkFlush env config c engine).2.life = engine.life := by
  unfold inputChunkFlush
  cases engine.storage.chunk? c with
  | none => rfl
  | some ic =>
    have setUp := @life_inputChunkSetUp env engine c
    rcases raised : inputChunkSetUp env c engine with ⟨up, raisedEngine⟩
    rw [raised] at setUp
    simp only
    cases up with
    | false => exact setUp
    | true =>
      simp only
      split
      · split
        · exact setUp
        · simp only
          split <;> exact setUp
      · exact setUp

end Engine

theorem Engine.refuses_of_answers {engine : Engine} {site : Site} (answer : engine.answers env site = false) :
    env.Refuses site :=
  ⟨engine.tick, answer⟩

section Scheduler

variable {engine after : Engine} {r : RetryRef} {seconds : Nat} {request : SchedRequest}

private theorem scheduleRequestNow_true (armed : scheduleRequestNow env request engine = (true, after)) :
    after = { engine.tock with requests := engine.requests ++ [request] } := by
  unfold scheduleRequestNow at armed
  split at armed
  · cases armed
    rfl
  · cases armed

private theorem scheduleRequestNow_false (refused : scheduleRequestNow env request engine = (false, after)) :
    after = engine.tock ∧ env.ok .timeoutCreate engine.tick = false := by
  unfold scheduleRequestNow at refused
  split at refused
  · cases refused
  · next answer =>
    cases refused
    exact ⟨rfl, by simpa [Engine.answers] using answer⟩

section

variable (life : Life) (armed waiting : List SchedRequest) (ref : Nat) (listed : life.requests = armed ++ waiting)
include life armed waiting ref listed

private theorem quiet_armed : Quiet { life with requests := life.requests ++ [request], nextRef := ref }
      { life with requests := armed ++ [request] ++ waiting, nextRef := ref } where
  tasks := rfl
  tasksMap := rfl
  retries := rfl
  requests := by
    rw [listed, append_assoc, append_assoc]
    exact (List.Perm.append_left armed perm_append_comm)
  pending := rfl
  inProgress := rfl
  flushes := rfl
  history := rfl
  nextRef := Nat.le_refl _

private theorem quiet_waiting : Quiet { life with requests := life.requests ++ [request], nextRef := ref }
      { life with requests := armed ++ (waiting ++ [request]), nextRef := ref } := by
  rw [listed, append_assoc]
  exact Quiet.refl _

end

theorem schedRequestCreate_some (created : schedRequestCreate env r engine = (some seconds, after)) :
    ∃ request : SchedRequest, request.ref = engine.nextRef ∧ request.data = r ∧
      Quiet (engine.life.schedule request) after.life := by
  unfold schedRequestCreate at created
  split at created
  · cases created
  simp only at created
  split at created
  · cases created
  split at created
  · obtain ⟨-, rfl⟩ := Prod.mk.inj created
    refine ⟨_, ?_, ?_, quiet_waiting engine.life engine.requests engine.requestsWait _ rfl⟩
    · rfl
    · rfl
  · split at created
    · next armed =>
      obtain ⟨-, rfl⟩ := Prod.mk.inj created
      have shape := scheduleRequestNow_true armed
      subst shape
      refine ⟨_, ?_, ?_, quiet_armed engine.life engine.requests engine.requestsWait _ rfl⟩
      · rfl
      · rfl
    · cases created

theorem schedRequestCreate_none (refused : schedRequestCreate env r engine = (none, after)) :
    Quiet engine.life after.life := by
  unfold schedRequestCreate at refused
  split at refused
  · obtain ⟨-, rfl⟩ := Prod.mk.inj refused
    exact Quiet.refl _
  simp only at refused
  split at refused
  · obtain ⟨-, rfl⟩ := Prod.mk.inj refused
    exact Quiet.refl _
  split at refused
  · cases refused
  · split at refused
    · cases refused
    · next armed =>
      obtain ⟨-, rfl⟩ := Prod.mk.inj refused
      obtain ⟨shape, -⟩ := scheduleRequestNow_false armed
      subst shape
      exact ⟨rfl, rfl, rfl, .refl _, rfl, rfl, rfl, rfl, le_succ _⟩

theorem schedRetryNow_true (created : schedRetryNow env r engine = (true, after)) :
    ∃ request : SchedRequest, request.ref = engine.nextRef ∧ request.data = r ∧
      Quiet (engine.life.schedule request) after.life := by
  unfold schedRetryNow at created
  split at created
  · cases created
  simp only at created
  split at created
  · cases created
  rw [scheduleRequestNow_true created]
  refine ⟨_, ?_, ?_, quiet_armed engine.life engine.requests engine.requestsWait _ rfl⟩
  · rfl
  · rfl

theorem schedRetryNow_false (refused : schedRetryNow env r engine = (false, after)) : Quiet engine.life after.life ∧
      ∃ elapsed < rescheduleTicks, env.RefusesTimer (engine.tick + elapsed) := by
  unfold schedRetryNow at refused
  split at refused
  · next answer =>
    cases refused
    exact ⟨Quiet.refl _, 0, by decide, .inl (by simpa [Engine.answers] using answer)⟩
  simp only at refused
  split at refused
  · next answer =>
    cases refused
    exact ⟨Quiet.refl _, 1, by decide, .inr (.inl (by simpa [Engine.answers, Engine.tock] using answer))⟩
  obtain ⟨shape, refuses⟩ := scheduleRequestNow_false refused
  subst shape
  exact ⟨⟨rfl, rfl, rfl, .refl _, rfl, rfl, rfl, rfl, le_succ _⟩, 3, by decide, .inr (.inr refuses)⟩

theorem tick_schedRetryNow (env : Env) (r : RetryRef) (engine : Engine) :
    ∃ spent ≤ rescheduleTicks, (schedRetryNow env r engine).2.tick = engine.tick + spent := by
  unfold schedRetryNow
  split
  · exact ⟨1, by decide, rfl⟩
  simp only
  split
  · exact ⟨2, by decide, rfl⟩
  unfold scheduleRequestNow
  split <;> exact ⟨4, le_refl _, rfl⟩

end Scheduler

section Promotion

theorem perm_cons_filter {requests : List SchedRequest} {request : SchedRequest}
    (distinct : (requests.map (·.ref)).Nodup) (member : request ∈ requests) :
    requests.Perm (request :: requests.filter (·.ref ≠ request.ref)) := by
  induction requests with
  | nil => cases member
  | cons head tail ih =>
    simp only [map_cons, nodup_cons] at distinct
    rcases mem_cons.mp member with rfl | later
    · have kept : tail.filter (·.ref ≠ request.ref) = tail := by
        rw [filter_eq_self]
        intro other listed
        simp only [decide_eq_true_eq]
        intro same
        exact distinct.1 (mem_map.mpr ⟨other, listed, same⟩)
      rw [filter_cons_of_neg (by simp), kept]
    · have different : head.ref ≠ request.ref := by
        intro same
        exact distinct.1 (mem_map.mpr ⟨request, later, same.symm⟩)
      rw [filter_cons_of_pos (by simpa using different)]
      exact ((ih distinct.2 later).cons head).trans (List.Perm.swap _ _ _)

def allRequests (failed : List SchedRequest) (engine : Engine) : List SchedRequest :=
  engine.requests ++ engine.requestsWait ++ failed

def SameBut (before after : Engine) : Prop :=
  after.life = { before.life with requests := after.life.requests }

variable {now : Nat}

private theorem promoteOne_spec {request : SchedRequest} {failed : List SchedRequest} {engine : Engine}
    (distinct : (engine.requestsWait.map (·.ref)).Nodup) (waiting : request ∈ engine.requestsWait) :
    SameBut engine (promoteOne env now request failed engine).2 ∧
      (allRequests (promoteOne env now request failed engine).1
        (promoteOne env now request failed engine).2).Perm (allRequests failed engine) ∧
      (∀ other ∈ engine.requestsWait, other.ref ≠ request.ref →
        other ∈ (promoteOne env now request failed engine).2.requestsWait) ∧
      (promoteOne env now request failed engine).2.requestsWait.Sublist engine.requestsWait := by
  have taken := perm_cons_filter distinct waiting
  have kept : ∀ other ∈ engine.requestsWait, other.ref ≠ request.ref →
      other ∈ engine.requestsWait.filter (·.ref ≠ request.ref) := by
    intro other listed different
    exact mem_filter.mpr ⟨listed, by simpa using different⟩
  unfold promoteOne
  simp only
  split
  · rcases armed : scheduleRequestNow env request
      { engine with requestsWait := engine.requestsWait.filter (·.ref ≠ request.ref) } with ⟨ok, next⟩
    cases ok with
    | true =>
      have shape := scheduleRequestNow_true armed
      subst shape
      refine ⟨rfl, ?_, kept, filter_sublist⟩
      simp only [allRequests, Engine.tock, append_assoc]
      refine List.Perm.append_left _ ?_
      rw [← append_assoc]
      exact (List.Perm.append_right failed taken).symm
    | false =>
      obtain ⟨shape, -⟩ := scheduleRequestNow_false armed
      subst shape
      refine ⟨rfl, ?_, kept, filter_sublist⟩
      simp only [allRequests, Engine.tock, append_assoc]
      refine List.Perm.append_left _ ?_
      calc engine.requestsWait.filter (·.ref ≠ request.ref) ++ (failed ++ [request])
          = (engine.requestsWait.filter (·.ref ≠ request.ref) ++ failed) ++ [request] := by
            rw [append_assoc]
        _ |>.Perm ([request] ++ (engine.requestsWait.filter (·.ref ≠ request.ref) ++ failed)) := perm_append_comm
        _ |>.Perm (engine.requestsWait ++ failed) := by
            rw [← append_assoc]
            exact (List.Perm.append_right failed taken).symm
  · exact ⟨rfl, .refl _, fun other listed _ => listed, .refl _⟩

private theorem promoteLoop_spec (rest failed : List SchedRequest) (engine : Engine)
    (distinct : (engine.requestsWait.map (·.ref)).Nodup) (visits : (rest.map (·.ref)).Nodup)
    (waiting : ∀ request ∈ rest, request ∈ engine.requestsWait) :
    SameBut engine (promoteLoop env now rest failed engine).2 ∧ (allRequests (promoteLoop env now rest failed engine).1
        (promoteLoop env now rest failed engine).2).Perm (allRequests failed engine) := by
  induction rest generalizing failed engine with
  | nil => exact ⟨rfl, .refl _⟩
  | cons request rest ih =>
    obtain ⟨same, perm, kept, fewer⟩ :=
      @promoteOne_spec env now request failed engine distinct (waiting request (mem_cons_self ..))
    simp only [map_cons, nodup_cons] at visits
    have later : ∀ other ∈ rest, other ∈ (promoteOne env now request failed engine).2.requestsWait := by
      intro other listed
      refine kept other (waiting other (mem_cons_of_mem _ listed)) ?_
      intro equal
      exact visits.1 (mem_map.mpr ⟨other, listed, equal⟩)
    obtain ⟨sameRest, permRest⟩ := ih (promoteOne env now request failed engine).1
      (promoteOne env now request failed engine).2 (distinct.sublist (fewer.map _)) visits.2 later
    simp only [promoteLoop]
    refine ⟨?_, permRest.trans perm⟩
    simp only [SameBut] at same sameRest ⊢
    rw [sameRest, same]

theorem quiet_scheduleRequestPromote {engine : Engine} (distinct : (engine.life.requests.map (·.ref)).Nodup) :
    Quiet engine.life (scheduleRequestPromote env engine).life := by
  have waitDistinct : (engine.requestsWait.map (·.ref)).Nodup := by
    simp only [Engine.life, map_append] at distinct
    exact (nodup_append.mp distinct).2.1
  obtain ⟨same, perm⟩ := @promoteLoop_spec env (engine.supplies env .time) engine.requestsWait [] engine.tock
    waitDistinct waitDistinct (fun request listed => listed)
  simp only [SameBut, allRequests, append_nil] at same perm
  have field : (scheduleRequestPromote env engine).life =
      { engine.life with requests := (scheduleRequestPromote env engine).life.requests } := by
    simp only [scheduleRequestPromote]
    have others := same
    simp only [Engine.life, Engine.tock, mk.injEq] at others ⊢
    tauto
  rw [field]
  refine ⟨rfl, rfl, rfl, ?_, rfl, rfl, rfl, rfl, Nat.le_refl _⟩
  simp only [scheduleRequestPromote, Engine.life, ← append_assoc]
  exact perm

end Promotion

section Retries

variable {engine after : Engine} {t : TaskRef} {o : OutId} {r : RetryRef}

private theorem life_retryAdjustChunk : (retryAdjustChunk config t engine).life = engine.life := by
  unfold retryAdjustChunk
  cases engine.task? t with
  | none => rfl
  | some task =>
    simp only
    split <;> split <;> rfl

/-- The retry is the old one, which is below its limit, or a new one. -/
theorem taskRetryCreate_some (created : taskRetryCreate env config t o engine = (some r, after)) :
    (∃ retry, engine.life.findRetry t o = some retry ∧ retry.ref = r ∧
      ((retry.attempts : Int) < config.retryLimit o ∨ config.retryLimit o < 0) ∧
      after.life = engine.life.retryAgain r) ∨
    (engine.life.findRetry t o = none ∧ r = engine.nextRef ∧ after.life = engine.life.retryFirst t o) := by
  unfold taskRetryCreate at created
  rw [findRetry_life]
  cases found : engine.retries.find? fun retry => decide (retry.parent = t ∧ retry.out = o) with
  | some retry =>
    rw [found] at created
    simp only at created
    split at created
    · cases created
    · next remaining =>
      obtain ⟨ref, rfl⟩ := Prod.mk.inj created
      cases ref
      refine .inl ⟨retry, rfl, rfl, ?_, ?_⟩
      · omega
      · rw [life_retryAdjustChunk]
        rfl
  | none =>
    rw [found] at created
    simp only at created
    split at created
    · cases created
    · obtain ⟨ref, rfl⟩ := Prod.mk.inj created
      cases ref
      refine .inr ⟨rfl, rfl, ?_⟩
      rw [life_retryAdjustChunk]
      rfl

theorem taskRetryCreate_none (refused : taskRetryCreate env config t o engine = (none, after)) :
    (∃ retry, engine.life.findRetry t o = some retry ∧ after.life = engine.life.retryDestroy retry.ref) ∨
      after.life = engine.life := by
  unfold taskRetryCreate at refused
  rw [findRetry_life]
  cases found : engine.retries.find? fun retry => decide (retry.parent = t ∧ retry.out = o) with
  | some retry =>
    rw [found] at refused
    simp only at refused
    split at refused
    · obtain ⟨-, rfl⟩ := Prod.mk.inj refused
      exact .inl ⟨retry, rfl, life_taskRetryDestroy engine retry.ref⟩
    · cases refused
  | none =>
    rw [found] at refused
    simp only at refused
    split at refused
    · obtain ⟨-, rfl⟩ := Prod.mk.inj refused
      exact .inr rfl
    · cases refused

end Retries

end FluentBit
