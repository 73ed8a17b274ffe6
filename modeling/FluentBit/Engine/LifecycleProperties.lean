import FluentBit.Engine.Lifecycle

/-! How the operations of the life-cycle machine act on its lists. -/

set_option autoImplicit false

namespace FluentBit

open List Tally

theorem Quiet.refl (life : Life) : Quiet life life := ⟨rfl, rfl, rfl, .refl _, rfl, rfl, rfl, rfl, Nat.le_refl _⟩

theorem Quiet.trans {first second third : Life} (left : Quiet first second) (right : Quiet second third) :
    Quiet first third where
  tasks := right.tasks.trans left.tasks
  tasksMap := right.tasksMap.trans left.tasksMap
  retries := right.retries.trans left.retries
  requests := right.requests.trans left.requests
  pending := right.pending.trans left.pending
  inProgress := right.inProgress.trans left.inProgress
  flushes := right.flushes.trans left.flushes
  history := right.history.trans left.history
  nextRef := left.nextRef.trans right.nextRef

namespace Life

def taskRefs (life : Life) : List TaskRef := life.tasks.map (·.ref)

variable {life : Life} {t : TaskRef} {o : OutId}

theorem task?_some {task : Task} (found : life.task? t = some task) : task ∈ life.tasks ∧ task.ref = t := by
  refine ⟨mem_of_find?_eq_some found, ?_⟩
  simpa using List.find?_some found

theorem mem_taskRefs : t ∈ life.taskRefs ↔ ∃ task ∈ life.tasks, task.ref = t := by
  simp [taskRefs]

theorem task?_isSome (live : t ∈ life.taskRefs) : ∃ task, life.task? t = some task := by
  obtain ⟨task, member, same⟩ := mem_taskRefs.mp live
  have found : (life.tasks.find? (·.ref = t)).isSome := by
    rw [List.find?_isSome]
    exact ⟨task, member, by simpa using same⟩
  exact Option.isSome_iff_exists.mp found

theorem findRetry_some {retry : TaskRetry} (found : life.findRetry t o = some retry) :
    retry ∈ life.retries ∧ retry.parent = t ∧ retry.out = o := by
  refine ⟨mem_of_find?_eq_some found, ?_⟩
  simpa using List.find?_some found

theorem findRetry_none (missing : life.findRetry t o = none) :
    ∀ retry ∈ life.retries, ¬(retry.parent = t ∧ retry.out = o) := by
  intro retry member same
  have absent := List.find?_eq_none.mp missing retry member
  simp [same] at absent

section Tasks

variable {life : Life} {t : TaskRef} {change : Task → Task}

theorem mem_setTask {task : Task} : task ∈ (life.setTask t change).tasks ↔
      ∃ old ∈ life.tasks, (if old.ref = t then change old else old) = task :=
  mem_replace

end Tasks

theorem mem_retryDestroy {r : RetryRef} {retry : TaskRetry} :
    retry ∈ (life.retryDestroy r).retries ↔ retry ∈ life.retries ∧ retry.ref ≠ r := by
  simp [retryDestroy]

section Fold

variable (refs : List RetryRef) (life : Life)

private theorem foldl_retryDestroy_eq : refs.foldl (fun life r => life.retryDestroy r) life = { life with
        retries := life.retries.filter fun retry => decide (retry.ref ∉ refs)
        requests := refs.foldl (fun requests r => requests.eraseP (·.data = r)) life.requests } := by
  induction refs generalizing life with
  | nil => simp
  | cons r rest ih =>
    rw [foldl_cons, ih]
    simp only [retryDestroy, filter_filter, foldl_cons]
    congr 1
    apply filter_congr
    intro retry _
    simp [Bool.and_comm]

theorem foldl_eraseP_sublist (requests : List SchedRequest) :
    (refs.foldl (fun requests r => requests.eraseP (·.data = r)) requests).Sublist requests := by
  induction refs generalizing requests with
  | nil => exact .refl _
  | cons r rest ih => exact (ih _).trans eraseP_sublist

end Fold

theorem countP_eraseP_other {requests : List SchedRequest} {r other : RetryRef} (different : other ≠ r) :
    (requests.eraseP (·.data = r)).countP (·.data = other) = requests.countP (·.data = other) := by
  refine countP_eraseP_apart (fun request names => ?_)
  have same : request.data = r := by simpa using names
  simp [same, Ne.symm different]

variable {refs : List RetryRef} {life : Life} {t : TaskRef}

theorem countP_foldl_eraseP_other {other : RetryRef} (absent : other ∉ refs) (requests : List SchedRequest) :
    (refs.foldl (fun requests r => requests.eraseP (·.data = r)) requests).countP (·.data = other) =
      requests.countP (·.data = other) := by
  induction refs generalizing requests with
  | nil => rfl
  | cons r rest ih =>
    simp only [mem_cons, not_or] at absent
    rw [foldl_cons, ih absent.2, countP_eraseP_other absent.1]

theorem countP_foldl_eraseP_le {r : RetryRef} (listed : r ∈ refs) (requests : List SchedRequest) :
    (refs.foldl (fun requests r => requests.eraseP (·.data = r)) requests).countP (·.data = r) ≤
      requests.countP (·.data = r) - 1 := by
  induction refs generalizing requests with
  | nil => simp at listed
  | cons first rest ih =>
    rw [foldl_cons]
    by_cases later : r ∈ rest
    · have bound := ih later (requests.eraseP (·.data = first))
      have smaller : (requests.eraseP (·.data = first)).countP (·.data = r) ≤ requests.countP (·.data = r) :=
        List.Sublist.countP_le eraseP_sublist
      omega
    · have equal : r = first := by simpa [later] using listed
      subst equal
      rw [countP_foldl_eraseP_other later, countP_eraseP_self]

def retriesOf (life : Life) (t : TaskRef) : List RetryRef :=
  (life.retries.filter (·.parent = t)).map (·.ref)

theorem destroy_eq (task : Task) : life.destroy task = { life with
        tasksMap := fun slot => if slot = task.id then none else life.tasksMap slot
        tasks := discard Task.ref task.ref life.tasks
        retries := life.retries.filter fun retry => decide (retry.ref ∉ life.retriesOf task.ref)
        requests := (life.retriesOf task.ref).foldl
          (fun requests r => requests.eraseP (·.data = r)) life.requests } := by
  rw [destroy, foldl_retryDestroy_eq]
  rfl

private theorem retriesOf_eq_nil (none : life.noRetries t = true) : life.retriesOf t = [] := by
  simp only [noRetries, all_eq_true, decide_eq_true_eq] at none
  simp only [retriesOf, map_eq_nil_iff, filter_eq_nil_iff, decide_eq_true_eq]
  exact none

private theorem destroy_of_noRetries {task : Task} (none : life.noRetries task.ref = true) :
    life.destroy task = { life with
        tasksMap := fun slot => if slot = task.id then Option.none else life.tasksMap slot
        tasks := discard Task.ref task.ref life.tasks } := by
  rw [destroy_eq, retriesOf_eq_nil none]
  simp

/-- A release destroys an idle task, and changes nothing else. -/
theorem release_cases (t : TaskRef) (life : Life) :
    (life.release t = life ∧ ∀ task, life.task? t = some task → life.isIdle task = false) ∨
      ∃ task, life.task? t = some task ∧ task.users = 0 ∧ life.noRetries task.ref = true ∧ life.release t =
          { life with
            tasksMap := fun slot => if slot = task.id then none else life.tasksMap slot
            tasks := discard Task.ref task.ref life.tasks
            history := .taskReleased task :: life.history } := by
  cases found : life.task? t with
  | none =>
    refine .inl ⟨by simp [release, found], ?_⟩
    intro task impossible
    simp at impossible
  | some task =>
    cases idle : life.isIdle task with
    | false =>
      refine .inl ⟨by simp [release, found, idle], ?_⟩
      intro other same
      cases same
      exact idle
    | true =>
      have parts := idle
      simp only [isIdle, Bool.and_eq_true, decide_eq_true_eq] at parts
      refine .inr ⟨task, rfl, parts.1, parts.2, ?_⟩
      have noneLeft : (life.act (.taskReleased task)).noRetries task.ref = true := parts.2
      simp only [release, found, idle, if_true]
      rw [destroy_of_noRetries noneLeft]
      rfl

theorem release_eq : life.release t = { life with
        tasks := (life.release t).tasks
        tasksMap := (life.release t).tasksMap
        history := (life.release t).history } := by
  rcases release_cases t life with ⟨same, -⟩ | ⟨task, -, -, -, released⟩
  · rw [same]
  · rw [released]

theorem history_release {earlier : List Action} (suffix : earlier <:+ life.history) :
    earlier <:+ (life.release t).history := by
  rcases release_cases t life with ⟨same, -⟩ | ⟨task, -, -, -, released⟩
  · rw [same]
    exact suffix
  · rw [released]
    exact suffix.trans (suffix_cons _ _)

theorem retryClean_cases (t : TaskRef) (o : OutId) (life : Life) :
    (life.retryClean t o = life ∧ life.findRetry t o = none) ∨
      ∃ retry, life.findRetry t o = some retry ∧ life.retryClean t o = life.retryDestroy retry.ref := by
  cases found : life.findRetry t o with
  | none => exact .inl ⟨by simp [retryClean, found], rfl⟩
  | some retry => exact .inr ⟨retry, rfl, by simp [retryClean, found]⟩

theorem mem_of_mem_retryClean {retry : TaskRetry} (member : retry ∈ (life.retryClean t o).retries) :
    retry ∈ life.retries := by
  rcases retryClean_cases t o life with ⟨cleaned, -⟩ | ⟨old, -, cleaned⟩
  · rwa [cleaned] at member
  · rw [cleaned] at member
    exact (mem_retryDestroy.mp member).1

theorem retryClean_eq : life.retryClean t o = { life with
        retries := (life.retryClean t o).retries
        requests := (life.retryClean t o).requests } := by
  rcases retryClean_cases t o life with ⟨cleaned, -⟩ | ⟨retry, -, cleaned⟩
  · rw [cleaned]
  · rw [cleaned]
    rfl

theorem retryAgain_refs (r : RetryRef) : (life.retryAgain r).retries.map (·.ref) = life.retries.map (·.ref) :=
  map_replace_of_fixed fun _ => rfl

theorem retryAgain_parents (r : RetryRef) (life : Life) :
    (life.retryAgain r).retries.map (·.parent) = life.retries.map (·.parent) :=
  map_replace_of_fixed fun _ => rfl

theorem setPhase_tasks (f : Nat) (phase : FlushPhase) (life : Life) :
    (life.setPhase f phase).flushes.map (·.task) = life.flushes.map (·.task) :=
  map_replace_of_fixed fun _ => rfl

theorem retryClean_requests_sublist : (life.retryClean t o).requests.Sublist life.requests := by
  rcases retryClean_cases t o life with ⟨cleaned, -⟩ | ⟨old, -, cleaned⟩
  · rw [cleaned]
  · rw [cleaned]
    exact eraseP_sublist

attribute [simp] act setTask acquire dismiss setStatus setRoute eraseRoute setPhase start enqueue pop retire
  retryDestroy retryAgain retryFirst schedule requestDestroy invalidate create leakSlot

end Life

section Frames

variable {p : Frame → Bool} {config : Config} {life : Life} {t : TaskRef} {o : OutId}

theorem countP_whenSynchronous (skips : p (.advance o) = false) : (whenSynchronous config o).countP p = 0 := by
  unfold whenSynchronous
  split <;> simp [skips]

theorem countP_whenIdle (skips : p (.turn o) = false) : (whenIdle life o).countP p = 0 := by
  unfold whenIdle
  split <;> simp [skips]

theorem countP_afterFailure {queued : Bool} {retry : Option RetryRef} (skips : p (.advance o) = false) :
    (afterFailure queued t o retry).countP p = if p (.doomed t o retry) then 1 else 0 := by
  unfold afterFailure
  cases queued <;> simp [countP_cons, skips]

theorem countP_routeFrames (routes : List TaskRoute) (skips : ∀ o, p (.route t o) = false) :
    (routes.map fun route => Frame.route t route.out).countP p = 0 := by
  induction routes with
  | nil => rfl
  | cons route rest ih => simp [skips, ih]

end Frames

/-! Who holds what in the life-cycle machine: every pointer to a task leads to a
live one, slots and live tasks correspond, and the users of a task are its
flushes, its queue entries, the results in hand and the users left behind by
queue entries that could not be allocated. -/

abbrev Stage := List Frame × Life

namespace Frame

def task? : Frame → Option TaskRef
  | .starting t _ | .route t _ | .attempt t _ _ _ | .doomed t _ _ | .result t _ | .closing t _
  | .unscheduled t _ _ => some t
  | .advance _ | .turn _ | .spent _ _ => none

def holds (t : TaskRef) : Frame → Bool
  | .result t' _ | .closing t' _ => decide (t' = t)
  | _ => false

def advances (o : OutId) : Frame → Bool
  | .advance o' | .turn o' => decide (o' = o)
  | _ => false

end Frame

namespace Action

def touches (t : TaskRef) : Action → Bool
  | .flushStarted _ t' | .enqueued _ t' | .flushFailed _ t' | .enqueueFailed _ t' => decide (t' = t)
  | _ => false

def refuses (t : TaskRef) : Action → Bool
  | .enqueueFailed _ t' => decide (t' = t)
  | _ => false

end Action

namespace Stage

def mentioned (stage : Stage) : List TaskRef :=
  stage.2.flushes.map (·.task) ++ stage.2.pending.map (·.task) ++ stage.2.retries.map (·.parent) ++
    stage.1.filterMap Frame.task?

def claimed (stage : Stage) (t : TaskRef) : Nat :=
  stage.2.flushes.countP (·.task = t) + stage.2.pending.countP (·.task = t) +
    stage.2.history.countP (Action.refuses t) + stage.1.countP (Frame.holds t)

end Stage

structure Sound (stage : Stage) : Prop where
  distinct : stage.2.taskRefs.Nodup
  retriesDistinct : (stage.2.retries.map (·.ref)).Nodup
  requestsDistinct : (stage.2.requests.map (·.ref)).Nodup
  allocated : ∀ t ∈ stage.2.taskRefs, t < stage.2.nextRef
  retriesAllocated : ∀ retry ∈ stage.2.retries, retry.ref < stage.2.nextRef
  requestsAllocated : ∀ request ∈ stage.2.requests, request.ref < stage.2.nextRef
  slots : ∀ task ∈ stage.2.tasks, stage.2.tasksMap task.id = some task.ref
  owners : ∀ id t, stage.2.tasksMap id = some t → id < tasksMapSize ∧
    ((∃ task ∈ stage.2.tasks, task.ref = t ∧ task.id = id) ∨ .taskCreateFailed t ∈ stage.2.history)
  live : ∀ t ∈ stage.mentioned, t ∈ stage.2.taskRefs
  users : ∀ task ∈ stage.2.tasks, task.users = stage.claimed task.ref
  touched : ∀ t, stage.2.history.any (Action.touches t) = true → t < stage.2.nextRef
  untouched : ∀ task ∈ stage.2.tasks, task.status = .new →
    task.ref ∉ stage.mentioned ∧ stage.2.history.any (Action.touches task.ref) = false
  queues : ∀ o, stage.2.pending.any (·.out = o) = true →
    stage.2.inProgress.any (·.out = o) = true ∨ stage.1.any (Frame.advances o) = true

end FluentBit
