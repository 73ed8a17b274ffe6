import FluentBit.Engine.Shape

/-! The queue of a synchronous output. Its entries are started one at a time and
in the order in which they were queued. When the event pipe of the output cannot
be written, `flb_output_task_flush` advances the queue and its caller advances it
once more, so this takes a pipe that can be written. -/

set_option autoImplicit false

namespace FluentBit

open List Bool Tally Runs Life Function

namespace Frame

def dequeued (o : OutId) : Frame → Option TaskRef
  | .attempt t o' _ true => if o' = o then some t else none
  | _ => none

def isDequeued (o : OutId) (frame : Frame) : Bool := (frame.dequeued o).isSome

def isAdvance (o : OutId) : Frame → Bool
  | .advance o' => decide (o' = o)
  | _ => false

def isTurn (o : OutId) : Frame → Bool
  | .turn o' => decide (o' = o)
  | _ => false

end Frame

namespace Action

def enqueuedOn (o : OutId) : Action → Option TaskRef
  | .enqueued o' t => if o' = o then some t else none
  | _ => none

def attemptedOn (o : OutId) : Action → Option TaskRef
  | .flushStarted o' t | .flushFailed o' t => if o' = o then some t else none
  | _ => none

end Action

def enqueuedTasks (o : OutId) (history : List Action) : List TaskRef :=
  history.reverse.filterMap (Action.enqueuedOn o)

def attemptedTasks (o : OutId) (history : List Action) : List TaskRef :=
  history.reverse.filterMap (Action.attemptedOn o)

def waitingTasks (o : OutId) (pending : List TaskEnqueued) : List TaskRef :=
  (pending.filter (·.out = o)).map (·.task)

def Stage.engaged (stage : Stage) (o : OutId) : Nat :=
  stage.2.flushes.countP (·.out = o) + stage.1.countP (Frame.isDequeued o) + stage.1.countP (Frame.isAdvance o)

structure Singleplex (o : OutId) (stage : Stage) : Prop where
  single : stage.engaged o + stage.1.countP (Frame.isTurn o) ≤ 1
  inProgress : stage.2.inProgress.countP (·.out = o) = stage.engaged o
  order : enqueuedTasks o stage.2.history =
    attemptedTasks o stage.2.history ++ stage.1.filterMap (Frame.dequeued o) ++ waitingTasks o stage.2.pending

section Counting

variable {config : Config} {life : Life} (o o' : OutId) (t : TaskRef)

@[simp] theorem countP_isDequeued_whenSynchronous : (whenSynchronous config o').countP (Frame.isDequeued o) = 0 :=
  countP_whenSynchronous rfl

@[simp] theorem countP_isTurn_whenSynchronous : (whenSynchronous config o').countP (Frame.isTurn o) = 0 :=
  countP_whenSynchronous rfl

@[simp] theorem filterMap_dequeued_whenSynchronous : (whenSynchronous config o').filterMap (Frame.dequeued o) = [] := by
  unfold whenSynchronous
  split <;> rfl

@[simp] theorem countP_isAdvance_whenSynchronous : (whenSynchronous config o').countP (Frame.isAdvance o) =
      if config.isSynchronous o' = true ∧ o' = o then 1 else 0 := by
  unfold whenSynchronous
  cases config.isSynchronous o' with
  | true => by_cases same : o' = o <;> simp [Frame.isAdvance, same]
  | false => simp

@[simp] theorem countP_isDequeued_whenIdle : (whenIdle life o').countP (Frame.isDequeued o) = 0 := countP_whenIdle rfl

@[simp] theorem countP_isAdvance_whenIdle : (whenIdle life o').countP (Frame.isAdvance o) = 0 := countP_whenIdle rfl

@[simp] theorem filterMap_dequeued_whenIdle : (whenIdle life o').filterMap (Frame.dequeued o) = [] := by
  unfold whenIdle
  split <;> rfl

section

variable (queued : Bool) (retry : Option RetryRef)
include queued retry

@[simp] theorem countP_isTurn_afterFailure : (afterFailure queued t o' retry).countP (Frame.isTurn o) = 0 :=
  countP_afterFailure rfl

@[simp] theorem filterMap_dequeued_afterFailure :
    (afterFailure queued t o' retry).filterMap (Frame.dequeued o) = [] := by
  cases queued <;> rfl

@[simp] theorem countP_isAdvance_afterFailure :
    (afterFailure queued t o' retry).countP (Frame.isAdvance o) = if queued = true ∧ o' = o then 1 else 0 := by
  unfold afterFailure
  cases queued with
  | true => by_cases same : o' = o <;> simp [Frame.isAdvance, same]
  | false => simp [Frame.isAdvance]

end

@[simp] theorem enqueuedTasks_cons (action : Action) (history : List Action) :
    enqueuedTasks o (action :: history) = enqueuedTasks o history ++ (action.enqueuedOn o).toList := by
  simp only [enqueuedTasks, reverse_cons, filterMap_append, filterMap_cons, filterMap_nil]
  cases action.enqueuedOn o <;> rfl

@[simp] theorem attemptedTasks_cons (action : Action) (history : List Action) :
    attemptedTasks o (action :: history) = attemptedTasks o history ++ (action.attemptedOn o).toList := by
  simp only [attemptedTasks, reverse_cons, filterMap_append, filterMap_cons, filterMap_nil]
  cases action.attemptedOn o <;> rfl

private theorem waitingTasks_append (pending : List TaskEnqueued) (entry : TaskEnqueued) :
    waitingTasks o (pending ++ [entry]) = waitingTasks o pending ++ if entry.out = o then [entry.task] else [] := by
  unfold waitingTasks
  by_cases same : entry.out = o <;> simp [same]

end Counting

variable {o' : OutId} {frames : List Frame}

private theorem waitingTasks_eraseP {o : OutId} {pending : List TaskEnqueued} {entry : TaskEnqueued}
    (found : pending.find? (·.out = o') = some entry) : waitingTasks o pending =
      (if o' = o then [entry.task] else []) ++ waitingTasks o (pending.eraseP (·.out = o')) := by
  induction pending with
  | nil => cases found
  | cons head rest ih =>
    unfold waitingTasks at ih ⊢
    by_cases first : head.out = o'
    · rw [List.find?_cons_of_pos (by simpa using first)] at found
      cases found
      by_cases same : o' = o
      · simp [first, same]
      · simp [first, same]
    · rw [List.find?_cons_of_neg (by simpa using first)] at found
      rw [eraseP_cons_of_neg (by simpa using first)]
      by_cases own : head.out = o
      · have different : o' ≠ o := fun same => first (own.trans same.symm)
        simpa [own, different] using ih found
      · simpa [own] using ih found

variable {env : Env} {config : Config} {rules : Rules} {before after : Stage} {o : OutId}

private theorem enqueuedTasks_release (t : TaskRef) (life : Life) :
    enqueuedTasks o (life.release t).history = enqueuedTasks o life.history := by
  rcases release_cases t life with ⟨same, -⟩ | ⟨task, -, -, -, same⟩
  · rw [same]
  · rw [same]
    simp [Action.enqueuedOn]

private theorem attemptedTasks_release (t : TaskRef) (life : Life) :
    attemptedTasks o (life.release t).history = attemptedTasks o life.history := by
  rcases release_cases t life with ⟨same, -⟩ | ⟨task, -, -, -, same⟩
  · rw [same]
  · rw [same]
    simp [Action.attemptedOn]

private theorem countP_isDequeued :
    frames.countP (Frame.isDequeued o) = (frames.filterMap (Frame.dequeued o)).length := by
  induction frames with
  | nil => rfl
  | cons frame rest ih =>
    rw [countP_cons, ih, filterMap_cons]
    unfold Frame.isDequeued
    cases frame.dequeued o <;> rfl

variable {frames' : List Frame} {life life' : Life}

theorem Singleplex.of_eq (singleplex : Singleplex o (frames, life))
    (flights : life'.flushes.countP (·.out = o) = life.flushes.countP (·.out = o))
    (waiting : waitingTasks o life'.pending = waitingTasks o life.pending)
    (inProgress : life'.inProgress.countP (·.out = o) = life.inProgress.countP (·.out = o))
    (enqueued : enqueuedTasks o life'.history = enqueuedTasks o life.history)
    (attempted : attemptedTasks o life'.history = attemptedTasks o life.history)
    (dequeued : frames'.filterMap (Frame.dequeued o) = frames.filterMap (Frame.dequeued o))
    (advances : frames'.countP (Frame.isAdvance o) = frames.countP (Frame.isAdvance o))
    (turns : frames'.countP (Frame.isTurn o) = frames.countP (Frame.isTurn o)) : Singleplex o (frames', life') := by
  have engaged : Stage.engaged (frames', life') o = Stage.engaged (frames, life) o := by
    simp [Stage.engaged, flights, countP_isDequeued, dequeued, advances]
  constructor
  · rw [engaged]
    simp only [turns]
    exact singleplex.single
  · rw [engaged]
    simp only [inProgress]
    exact singleplex.inProgress
  · simp only [enqueued, attempted, dequeued, waiting]
    exact singleplex.order

theorem Singleplex.release (t : TaskRef) (singleplex : Singleplex o (frames, life)) :
    Singleplex o (frames, life.release t) := by
  refine singleplex.of_eq ?_ ?_ ?_ (enqueuedTasks_release t life) (attemptedTasks_release t life) rfl rfl rfl
  · rw [release_eq]
  · rw [release_eq]
  · rw [release_eq]

private theorem filterMap_dequeued_other (different : o' ≠ o) {t : TaskRef} {retry : Option RetryRef} {queued : Bool} :
    (Frame.attempt t o' retry queued :: frames).filterMap (Frame.dequeued o) = frames.filterMap (Frame.dequeued o) := by
  refine filterMap_cons_none ?_
  cases queued with
  | true => simp [Frame.dequeued, different]
  | false => rfl

theorem Frame.Owed.no_turn (owed : Owed frames) :
    frames.countP (Frame.isTurn o) = 0 ∧ frames.filterMap (Frame.dequeued o) = [] := by
  induction owed with
  | base base =>
    cases base with
    | starting t outs rest =>
      constructor
      · simp [Frame.isTurn, comp_def]
      · simp [Frame.dequeued, comp_def]
    | _ => exact ⟨rfl, rfl⟩
  | doomed _ ih | advance _ ih =>
    obtain ⟨turns, dequeued⟩ := ih
    exact ⟨by simp [Frame.isTurn, turns], (filterMap_cons_none rfl).trans dequeued⟩

section Attempts

variable {t : TaskRef} {retry : Option RetryRef} {queued : Bool} {pushed : List Frame}

/-- The attempt of the entry that is in progress is over, and the entry is in a flush or is
followed by an advance of the queue. -/
theorem Singleplex.attempted (singleplex : Singleplex o (.attempt t o retry true :: frames, life))
    (owed : Frame.Owed frames) (silent : pushed.filterMap (Frame.dequeued o) = [])
    (turns : pushed.countP (Frame.isTurn o) = 0)
    (flights : life'.flushes.countP (·.out = o) + pushed.countP (Frame.isAdvance o) =
      life.flushes.countP (·.out = o) + 1)
    (pending : life'.pending = life.pending) (inProgress : life'.inProgress = life.inProgress)
    (enqueued : enqueuedTasks o life'.history = enqueuedTasks o life.history)
    (attempted : attemptedTasks o life'.history = attemptedTasks o life.history ++ [t]) :
    Singleplex o (pushed ++ frames, life') := by
  obtain ⟨noTurn, noDequeued⟩ := owed.no_turn (o := o)
  have engaged : Stage.engaged (pushed ++ frames, life') o =
      Stage.engaged (.attempt t o retry true :: frames, life) o := by
    simp [Stage.engaged, countP_isDequeued, silent, noDequeued, Frame.isAdvance, Frame.dequeued]
    omega
  have single := singleplex.single
  have order := singleplex.order
  rw [← engaged] at single
  refine ⟨?_, ?_, ?_⟩
  · simpa [turns, noTurn] using Nat.le_trans (Nat.le_add_right _ _) single
  · rw [engaged, inProgress]
    exact singleplex.inProgress
  · simp only [filterMap_cons, Frame.dequeued, if_true, noDequeued] at order
    simpa [enqueued, attempted, pending, silent, noDequeued] using order

theorem Singleplex.elsewhere (different : o' ≠ o)
    (singleplex : Singleplex o (.attempt t o' retry queued :: frames, life))
    (silent : pushed.filterMap (Frame.dequeued o) = []) (advances : pushed.countP (Frame.isAdvance o) = 0)
    (turns : pushed.countP (Frame.isTurn o) = 0)
    (flights : life'.flushes.countP (·.out = o) = life.flushes.countP (·.out = o))
    (waiting : waitingTasks o life'.pending = waitingTasks o life.pending)
    (inProgress : life'.inProgress = life.inProgress)
    (enqueued : enqueuedTasks o life'.history = enqueuedTasks o life.history)
    (attempted : attemptedTasks o life'.history = attemptedTasks o life.history) :
    Singleplex o (pushed ++ frames, life') := by
  refine singleplex.of_eq flights waiting (by rw [inProgress]) enqueued attempted ?_ ?_ ?_
  · rw [filterMap_append, silent, nil_append, filterMap_dequeued_other different]
  · simp [advances, Frame.isAdvance]
  · simp [turns, Frame.isTurn]

end Attempts

theorem Singleplex.step (synchronous : config.isSynchronous o = true)
    (writes : config.isThreaded o = true ∨ ¬env.Refuses (.pipeWrite o)) (wellFormed : WellFormed before)
    (singleplex : Singleplex o before) (move : Move env config rules before after) : Singleplex o after := by
  cases move with
  | quiet quiet =>
    exact singleplex.of_eq (by rw [quiet.flushes]) (by rw [quiet.pending]) (by rw [quiet.inProgress])
      (by rw [quiet.history]) (by rw [quiet.history]) rfl rfl rfl
  | destroyed =>
    rw [destroy_eq]
    exact singleplex.of_eq rfl rfl rfl rfl rfl rfl rfl rfl
  | @phase flush phase status life =>
    refine singleplex.of_eq ?_ rfl rfl rfl rfl rfl rfl rfl
    have outs : (life.setPhase flush.ref phase).flushes.map (·.out) = life.flushes.map (·.out) :=
      map_replace_of_fixed fun _ => rfl
    have same := congrArg (List.countP (· = o)) outs
    simp only [countP_map, comp_def] at same
    exact same
  | leaked | dropCounted =>
    exact singleplex.of_eq rfl rfl rfl (by simp [Action.enqueuedOn]) (by simp [Action.attemptedOn]) rfl rfl rfl
  | created | routeDropped | erased | rescheduled | rescheduleRefused =>
    exact singleplex.of_eq rfl rfl rfl rfl rfl rfl rfl rfl
  | run =>
    refine singleplex.of_eq rfl rfl rfl rfl rfl ?_ ?_ ?_
    · simp [Frame.dequeued, comp_def]
    · simp [Frame.isAdvance, comp_def]
    · simp [Frame.isTurn, comp_def]
  | routeErased | routeLost | routeOpened | begun | doomed | undoomed | delivered | scheduled | postponed
  | spent | forgotten | fired | unreadable | retriedAgain | retriedFirst =>
    exact singleplex.of_eq rfl rfl rfl rfl rfl rfl (by simp [Frame.isAdvance]) (by simp [Frame.isTurn])
  | dropped | limitReached | enqueueRefused =>
    exact singleplex.of_eq rfl rfl rfl (by simp [Action.enqueuedOn]) (by simp [Action.attemptedOn])
      rfl (by simp [Frame.isAdvance]) (by simp [Frame.isTurn])
  | finished =>
    refine Singleplex.release _ ?_
    rw [retryClean_eq]
    exact singleplex.of_eq rfl rfl rfl rfl rfl rfl rfl rfl
  | unschedulable | abandoned =>
    exact Singleplex.release _ (singleplex.of_eq rfl rfl rfl rfl rfl rfl rfl rfl)
  | @exhausted o' frames life missing =>
    have engaged : Stage.engaged (.turn o' :: frames, life) o = Stage.engaged (frames, life) o := by
      simp [Stage.engaged, Frame.isDequeued, Frame.dequeued, Frame.isAdvance]
    have single := singleplex.single
    refine ⟨Nat.le_trans (Nat.add_le_add_left ?_ _) single, engaged ▸ singleplex.inProgress, singleplex.order⟩
    exact List.Sublist.countP_le (sublist_cons_self ..)
  | @flushed t o' retry queued frames life kind =>
    by_cases same : o' = o
    · subst same
      rw [synchronous] at kind
      subst kind
      change Singleplex o' ([] ++ frames, _)
      exact singleplex.attempted (Frame.owed_of_attempt wellFormed.shaped) rfl rfl (by simp) rfl rfl
        (by simp [Action.enqueuedOn]) (by simp [Action.attemptedOn])
    · change Singleplex o ([] ++ frames, _)
      exact singleplex.elsewhere same rfl rfl rfl (by simp [same]) rfl rfl (by simp [Action.enqueuedOn])
        (by simp [Action.attemptedOn, same])
  | @poolRefused t o' retry queued frames life kind | @createRefused t o' retry queued frames life kind =>
    by_cases same : o' = o
    · subst same
      rw [synchronous] at kind
      subst kind
      exact singleplex.attempted (Frame.owed_of_attempt wellFormed.shaped) (by simp) (by simp) (by simp [synchronous])
        rfl rfl (by simp [Action.enqueuedOn]) (by simp [Action.attemptedOn])
    · exact singleplex.elsewhere same (by simp) (by simp [same]) (by simp) rfl rfl rfl (by simp [Action.enqueuedOn])
        (by simp [Action.attemptedOn, same])
  | @pipeRefused t o' retry queued frames life kind direct refused =>
    by_cases same : o' = o
    · subst same
      rcases writes with threaded | willing
      · rw [direct] at threaded
        cases threaded
      · exact absurd refused willing
    · exact singleplex.elsewhere same (by simp) (by simp [same]) (by simp) rfl rfl rfl (by simp [Action.enqueuedOn])
        (by simp [Action.attemptedOn, same])
  | @enqueued t o' retry frames life =>
    by_cases same : o' = o
    · subst same
      obtain ⟨noTurn, noDequeued⟩ := (Frame.owed_of_attempt wellFormed.shaped).no_turn (o := o')
      have engaged : Stage.engaged (.attempt t o' retry false :: frames, life) o' =
          Stage.engaged (whenIdle life o' ++ frames, life.enqueue retry t o') o' := by
        simp [Stage.engaged, Frame.isDequeued, Frame.dequeued, Frame.isAdvance]
      have single := singleplex.single
      have inProgress := singleplex.inProgress
      have order := singleplex.order
      rw [engaged] at single inProgress
      refine ⟨?_, inProgress, ?_⟩
      · rw [countP_append, noTurn]
        unfold whenIdle
        split
        · next idle =>
          -- nothing is in progress, so nothing is engaged
          have none : life.inProgress.countP (·.out = o') = 0 := by
            rw [countP_eq_zero]
            exact List.find?_eq_none.mp (Option.isNone_iff_eq_none.mp idle)
          have zero : Stage.engaged (whenIdle life o' ++ frames, life.enqueue retry t o') o' = 0 :=
            inProgress.symm.trans none
          unfold whenIdle at zero
          rw [if_pos idle] at zero
          rw [zero]
          simp [Frame.isTurn]
        · next busy =>
          unfold whenIdle at single
          rw [if_neg busy] at single
          exact Nat.le_trans (Nat.le_add_right _ _) single
      · have silent : (Frame.attempt t o' retry false :: frames).filterMap (Frame.dequeued o') =
            frames.filterMap (Frame.dequeued o') := rfl
        rw [silent, noDequeued] at order
        simp [noDequeued, Action.enqueuedOn, Action.attemptedOn, waitingTasks_append, order]
    · exact singleplex.elsewhere same (by simp) (by simp) (countP_whenIdle (by simp [Frame.isTurn, same])) rfl
        (by simp [waitingTasks_append, same]) rfl (by simp [Action.enqueuedOn, same]) (by simp [Action.attemptedOn])
  | @popped o' entry frames life found =>
    have names : entry.out = o' := by simpa using List.find?_some found
    have erased := waitingTasks_eraseP (o := o) found
    by_cases same : o' = o
    · subst same
      obtain ⟨noTurn, noDequeued⟩ := (Frame.owed_of_turn wellFormed.shaped).no_turn (o := o')
      have single := singleplex.single
      have inProgress := singleplex.inProgress
      have order := singleplex.order
      have engaged : Stage.engaged (.attempt entry.task o' entry.retry true :: frames, life.pop entry o') o' =
          Stage.engaged (.turn o' :: frames, life) o' + 1 := by
        simp [Stage.engaged, Frame.isDequeued, Frame.dequeued, Frame.isAdvance]
        omega
      refine ⟨?_, ?_, ?_⟩
      · simp only [countP_cons, Frame.isTurn, false_eq_true, if_false, decide_true, if_true] at single ⊢
        omega
      · rw [engaged, ← inProgress]
        simp [names]
      · have silent : (Frame.turn o' :: frames).filterMap (Frame.dequeued o') =
            frames.filterMap (Frame.dequeued o') := rfl
        rw [silent, noDequeued, append_nil, erased, if_pos rfl] at order
        simp only [pop, dismiss, setTask, filterMap_cons, Frame.dequeued, if_true, noDequeued]
        rw [order, append_assoc]
    · refine singleplex.of_eq rfl ?_ ?_ rfl rfl ?_ (by simp [Frame.isAdvance]) (by simp [Frame.isTurn, same])
      · rw [erased, if_neg same]
        rfl
      · simp [names, same]
      · exact filterMap_dequeued_other same
  | @retired o' frames life =>
    by_cases same : o' = o
    · subst same
      have single := singleplex.single
      have inProgress := singleplex.inProgress
      have engaged : Stage.engaged (.advance o' :: frames, life) o' =
          Stage.engaged (.turn o' :: frames, life.retire o') o' + 1 := by
        simp [Stage.engaged, Frame.isDequeued, Frame.dequeued, Frame.isAdvance]
        omega
      rw [engaged] at single inProgress
      refine ⟨?_, ?_, singleplex.order⟩
      · simp only [countP_cons, Frame.isTurn, false_eq_true, if_false, decide_true, if_true] at single ⊢
        omega
      · have erased := countP_eraseP_self (fun entry : TaskEnqueued => decide (entry.out = o')) life.inProgress
        rw [inProgress] at erased
        exact erased
    · refine singleplex.of_eq rfl rfl ?_ rfl rfl rfl (by simp [Frame.isAdvance, same]) (by simp [Frame.isTurn, same])
      refine countP_eraseP_apart (fun entry names => ?_)
      have out : entry.out = o' := by simpa using names
      simp [out, same]
  | @result f flush t life found =>
    have moved := countP_eraseP (q := fun flush : OutputFlush => decide (flush.out = o)) found
    have silent : (whenSynchronous config flush.out ++ [Frame.result t flush.out]).filterMap (Frame.dequeued o) = [] := by
      rw [filterMap_append, filterMap_dequeued_whenSynchronous]
      rfl
    by_cases same : flush.out = o
    · have engaged : Stage.engaged (whenSynchronous config flush.out ++ [.result t flush.out],
          { life with flushes := life.flushes.eraseP (·.ref = f) }) o = Stage.engaged ([], life) o := by
        rw [same] at moved ⊢
        simp only [decide_true, if_true] at moved
        simp [Stage.engaged, Frame.isDequeued, Frame.dequeued, Frame.isAdvance, synchronous]
        omega
      have single := singleplex.single
      rw [← engaged] at single
      refine ⟨?_, engaged ▸ singleplex.inProgress, ?_⟩
      · simpa [Frame.isTurn] using single
      · rw [silent]
        exact singleplex.order
    · refine singleplex.of_eq ?_ rfl rfl rfl rfl silent (by simp [Frame.isAdvance, same]) (by simp [Frame.isTurn])
      simpa [same] using moved.symm

section Runs

variable {onDisk : OnDisk} {engine : Engine}

private theorem singleplex_reachable (synchronous : config.isSynchronous o = true)
    (writes : config.isThreaded o = true ∨ ¬env.Refuses (.pipeWrite o))
    (path : Runs.Path (step env config) anyEvent (started onDisk) engine) : Singleplex o ([], engine.life) := by
  have initial : Singleplex o ([], (started onDisk).life) := ⟨Nat.zero_le 1, rfl, rfl⟩
  refine (moves_invariant (Singleplex o) initial ?_ path).2
  intro engine event _ _ _ before after _ _ move wellFormed held
  exact held.step synchronous writes wellFormed move

/-- In every run in which the event pipe of a synchronous output can be written,
at most one task of the output is in progress, the flush of that task is the one
that is outstanding, and the flushes attempted so far are those of the tasks
queued so far, in the order of the queue, up to the tasks that still wait. -/
theorem synchronous_output_is_singleplex (synchronous : config.isSynchronous o = true)
    (writes : config.isThreaded o = true ∨ ¬env.Refuses (.pipeWrite o))
    (path : Runs.Path (step env config) anyEvent (started onDisk) engine) : engine.inProgress.countP (·.out = o) ≤ 1 ∧
      engine.flushes.countP (·.out = o) = engine.inProgress.countP (·.out = o) ∧
      enqueuedTasks o engine.history = attemptedTasks o engine.history ++ waitingTasks o engine.pending := by
  have held := singleplex_reachable synchronous writes path
  have inProgress : engine.inProgress.countP (·.out = o) = engine.flushes.countP (·.out = o) := held.inProgress
  have single : engine.flushes.countP (·.out = o) ≤ 1 := held.single
  refine ⟨inProgress ▸ single, inProgress.symm, ?_⟩
  simpa [Engine.life] using held.order

end Runs

namespace Sample

def fourTasks : List Event :=
  [.append (logs [1]), .append (logs [2]), .append (logs [3]), .append (logs [4]), .dispatch 0,
    .preCbFlush 13, .outputReturn 13 .ok, .outputEvent 13]

end Sample

open Sample in
theorem synchronous_output_is_singleplex_fourTasks :
    singleplex.isSynchronous 0 = true ∧ ¬willing.Refuses (.pipeWrite 0) ∧
      (Runs.after (step willing singleplex) (started noDisk) fourTasks).inProgress.countP (·.out = 0) ≤ 1 ∧
      enqueuedTasks 0 (Runs.after (step willing singleplex) (started noDisk) fourTasks).history = [8, 9, 10, 11] ∧
      attemptedTasks 0 (Runs.after (step willing singleplex) (started noDisk) fourTasks).history = [8, 9] := by
  refine ⟨by decide, willing_never_refuses _, ?_, by decide +kernel, by decide +kernel⟩
  exact (synchronous_output_is_singleplex (by decide) (.inr (willing_never_refuses _))
    (reached (step willing singleplex) (started noDisk) fourTasks)).1

open Sample in
/-- One write to the event pipe fails, and two of the tasks are flushed at once. -/
theorem two_tasks_in_progress : ¬∀ (env : Env) (config : Config) (o : OutId) (onDisk : OnDisk) (engine : Engine),
      config.isSynchronous o = true → Runs.Path (step env config) anyEvent (started onDisk) engine →
        engine.flushes.countP (·.out = o) ≤ 1 := by
  intro holds
  let refusing := Sample.env fun site tick => decide (site = .pipeWrite 0 ∧ tick = 40)
  have single := holds refusing singleplex 0 noDisk _ (by decide)
    (reached (step refusing singleplex) (started noDisk) fourTasks)
  revert single
  decide +kernel

end FluentBit
