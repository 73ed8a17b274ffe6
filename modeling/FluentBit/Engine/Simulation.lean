import FluentBit.Engine.Projection

/-! The handlers of the engine are sequences of moves of the life-cycle machine. -/

set_option autoImplicit false

namespace FluentBit

open List Nat Bool Tally Life

variable {env : Env} {config : Config} {rules : Rules}

theorem Moves.history_suffix {before after : Stage} (moves : Moves env config rules before after) :
    before.2.history <:+ after.2.history := by
  induction moves with
  | refl => exact suffix_refl _
  | tail _ move ih => exact ih.trans move.history_suffix

theorem Moves.quiet {frames : List Frame} {before after : Life} (quiet : Quiet before after) :
    Moves env config rules (frames, before) (frames, after) :=
  .single (.quiet quiet)

private theorem dismiss_acquire (t : TaskRef) (life : Life) : (life.acquire t).dismiss t = life := by
  have tasks : Tally.replace Task.ref t (fun task => { task with users := task.users - 1 })
      (Tally.replace Task.ref t (fun task => { task with users := task.users + 1 }) life.tasks) = life.tasks := by
    rw [replace_replace]
    · exact replace_eq_self fun task _ _ => by simp
    · intro task
      rfl
  simp [dismiss, acquire, setTask, tasks]

section Queues

/-- The effect of a function that advances the queue of an output: it works off
the frame that asks for it, queues nothing and creates no retry. -/
structure Advanced (env : Env) (config : Config) (rules : Rules) (pushed popped : List Frame)
    (o : OutId) (before after : Engine) : Prop where
  moves : ∀ frames, Moves env config rules (pushed ++ frames, before.life) (popped ++ frames, after.life)
  pending : pendingSize after o ≤ pendingSize before o
  retries : ∀ retry ∈ after.retries, retry ∈ before.retries

theorem Advanced.refl (frames : List Frame) (o : OutId) (engine : Engine) :
    Advanced env config rules frames frames o engine engine :=
  ⟨fun _ => .refl, Nat.le_refl _, fun _ member => member⟩

variable {a b : Engine} {pushed popped : List Frame}

theorem Advanced.trans {first second third : List Frame} {o : OutId} {c : Engine}
    (left : Advanced env config rules first second o a b) (right : Advanced env config rules second third o b c) :
    Advanced env config rules first third o a c :=
  ⟨fun frames => (left.moves frames).trans (right.moves frames), right.pending.trans left.pending,
    fun retry member => left.retries retry (right.retries retry member)⟩

theorem Advanced.above {o : OutId} (advanced : Advanced env config rules pushed popped o a b) (below : List Frame) :
    Advanced env config rules (pushed ++ below) (popped ++ below) o a b := by
  refine ⟨fun frames => ?_, advanced.pending, advanced.retries⟩
  rw [append_assoc, append_assoc]
  exact advanced.moves (below ++ frames)

variable {next : OutId → Engine → Engine} {bound : Nat} {o : OutId}

/-- `next` advances the queue of `o` as long as few enough entries wait. -/
def Advances (env : Env) (config : Config) (rules : Rules) (next : OutId → Engine → Engine) (o : OutId)
    (bound : Nat) : Prop :=
  ∀ engine, pendingSize engine o ≤ bound →
    Advanced env config rules [.advance o] [] o engine (next o engine)

theorem advanced_whenSynchronous
    (advances : config.isSynchronous o = true → Advances env config rules next o bound) {engine : Engine}
    (few : pendingSize engine o ≤ bound) : Advanced env config rules (whenSynchronous config o) [] o engine
      (if config.isSynchronous o then next o engine else engine) := by
  unfold whenSynchronous
  split
  · next synchronous => exact advances synchronous engine few
  · exact .refl [] o engine

private theorem advanced_taskRetryDestroy (t : TaskRef) (retry : Option RetryRef) (engine : Engine) :
    Advanced env config rules [.doomed t o retry] [] o engine (match retry with
        | some r => taskRetryDestroy r engine
        | none => engine) := by
  cases retry with
  | none => exact ⟨fun frames => .single .undoomed, Nat.le_refl _, fun _ member => member⟩
  | some r =>
    have projected := life_taskRetryDestroy engine r
    refine ⟨fun frames => ?_, ?_, ?_⟩
    · simp only
      rw [projected]
      exact .single .doomed
    · have same : (taskRetryDestroy r engine).pending = engine.pending := congrArg pending projected
      simp only [pendingSize, same]
      exact Nat.le_refl _
    · intro kept member
      have same : (taskRetryDestroy r engine).retries = engine.retries.filter (·.ref ≠ r) :=
        congrArg retries projected
      simp only [same] at member
      exact mem_of_mem_filter member

def refusedFlush (t : TaskRef) (o : OutId) (engine : Engine) : Engine :=
  (taskUsersDec t (taskUsersInc t engine).tock).record (.flushFailed o t)

private theorem life_refusedFlush (t : TaskRef) (engine : Engine) :
    (refusedFlush t o engine).life = engine.life.act (.flushFailed o t) := by
  unfold refusedFlush
  rw [life_record, life_taskUsersDec, life_tock, life_taskUsersInc, dismiss_acquire]

theorem Advanced.history_subset {before after : Engine}
    (advanced : Advanced env config rules pushed popped o before after) :
    ∀ action ∈ before.history, action ∈ after.history :=
  fun _ member => (advanced.moves []).history_suffix.subset member

private theorem outputTaskFlush_spec
    (advances : config.isSynchronous o = true → Advances env config rules next o bound) {engine : Engine}
    (few : pendingSize engine o ≤ bound) (t : TaskRef) (retry : Option RetryRef) :
    Advanced env config rules [.attempt t o retry (config.isSynchronous o)]
      (if (outputTaskFlush env config next t o engine).1 then []
        else afterFailure (config.isSynchronous o) t o retry) o engine (outputTaskFlush env config next t o engine).2 ∧
    (.flushStarted o t ∈ (outputTaskFlush env config next t o engine).2.history ∨
      .flushFailed o t ∈ (outputTaskFlush env config next t o engine).2.history) := by
  have advanced : ∀ start : Engine, start.life = engine.life → Advanced env config rules
      (whenSynchronous config o) [] o (refusedFlush t o start)
      (if config.isSynchronous o then next o (refusedFlush t o start) else refusedFlush t o start) := by
    intro start same
    have pending : (refusedFlush t o start).pending = engine.pending := congrArg pending same
    refine advanced_whenSynchronous advances ?_
    simpa only [pendingSize, pending] using few
  unfold outputTaskFlush
  simp only
  split
  · next threaded =>
    split
    · exact ⟨⟨fun frames => .single (.flushed rfl), Nat.le_refl _, fun _ member => member⟩, .inl (mem_cons_self ..)⟩
    · next answer =>
      have later := advanced engine rfl
      refine ⟨⟨fun frames => ?_, later.pending, later.retries⟩, .inr (later.history_subset _ (mem_cons_self ..))⟩
      have first : Move env config rules (.attempt t o retry (config.isSynchronous o) :: frames, engine.life)
          (whenSynchronous config o ++ frames, engine.life.act (.flushFailed o t)) :=
        .poolRefused rfl threaded (Engine.refuses_of_answers (eq_false_iff.mpr answer))
      rw [← life_refusedFlush] at first
      exact .head first (later.moves frames)
  · next unthreaded =>
    have direct : config.isThreaded o = false := eq_false_iff.mpr unthreaded
    split
    · next answer =>
      refine ⟨⟨fun frames => .single ?_, Nat.le_refl _, fun _ member => member⟩, .inr (mem_cons_self ..)⟩
      exact .createRefused rfl direct (Engine.refuses_of_answers (by simpa using answer))
    · split
      · exact ⟨⟨fun frames => .single (.flushed rfl), Nat.le_refl _, fun _ member => member⟩,
          .inl (mem_cons_self ..)⟩
      · next answer =>
        have later := advanced engine.tock rfl
        refine ⟨⟨fun frames => ?_, later.pending, later.retries⟩,
          .inr (later.history_subset _ (mem_cons_self ..))⟩
        have first : Move env config rules (.attempt t o retry (config.isSynchronous o) :: frames, engine.life)
            (whenSynchronous config o ++ afterFailure (config.isSynchronous o) t o retry ++ frames,
              engine.tock.life.act (.flushFailed o t)) :=
          .pipeRefused rfl direct (Engine.refuses_of_answers (eq_false_iff.mpr answer))
        rw [← life_refusedFlush, append_assoc] at first
        exact .head first (later.moves _)

private theorem outputTaskQueueFlushOne_spec (synchronous : config.isSynchronous o = true)
    (advances : Advances env config rules next o bound) {engine : Engine} (few : pendingSize engine o ≤ bound + 1) :
    Advanced env config rules [.turn o] [] o engine (outputTaskQueueFlushOne env config next o engine).2 ∧
      ∀ entry, engine.pending.find? (·.out = o) = some entry →
        (outputTaskQueueFlushOne env config next o engine).1 = false → ∀ r, entry.retry = some r →
          ∀ retry ∈ (outputTaskQueueFlushOne env config next o engine).2.retries, retry.ref ≠ r := by
  unfold outputTaskQueueFlushOne
  cases found : engine.pending.find? (·.out = o) with
  | none =>
    refine ⟨⟨fun frames => .single (.exhausted found), Nat.le_refl _, fun _ member => member⟩, ?_⟩
    intro entry impossible
    cases impossible
  | some queued =>
    simp only
    let popped : Engine := taskUsersDec queued.task { engine with
      pending := engine.pending.eraseP (·.out = o)
      inProgress := engine.inProgress ++ [queued] }
    have names : queued.out = o := by simpa using List.find?_some found
    have count := countP_eraseP (q := fun entry : TaskEnqueued => decide (entry.out = o)) found
    simp only [names, decide_true, if_true] at count
    have fewer : pendingSize popped o + 1 = pendingSize engine o := count.symm
    have pop : Advanced env config rules [.turn o] [.attempt queued.task o queued.retry true] o engine popped :=
      ⟨fun frames => .single (.popped found), by omega, fun _ member => member⟩
    have flush := (@outputTaskFlush_spec env config rules next bound o (fun _ => advances) popped (by omega)
      queued.task queued.retry).1
    rw [synchronous] at flush
    rcases flushed : outputTaskFlush env config next queued.task o popped with ⟨ok, after⟩
    rw [flushed] at flush
    cases ok with
    | true =>
      refine ⟨pop.trans flush, ?_⟩
      intro entry _ impossible
      cases impossible
    | false =>
      let read := readEntry queued after
      have same : Advanced env config rules (afterFailure true queued.task o queued.retry)
          (afterFailure true queued.task o queued.retry) o after read :=
        ⟨fun _ => .refl, Nat.le_refl _, fun _ member => member⟩
      have doomed := @advanced_taskRetryDestroy env config rules o queued.task queued.retry read
      have few : pendingSize read o ≤ bound := flush.pending.trans (by omega)
      have advanced := advances _ (doomed.pending.trans few)
      refine ⟨(((pop.trans flush).trans same).trans (doomed.above [.advance o])).trans advanced, ?_⟩
      intro entry same _ r named retry member
      cases same
      have kept := advanced.retries retry member
      rw [named] at kept
      have projected := life_taskRetryDestroy read r
      have listed : retry ∈ (taskRetryDestroy r read).life.retries := kept
      rw [projected] at listed
      exact (mem_retryDestroy.mp listed).2

private theorem singleplexFlushNext_advances (synchronous : config.isSynchronous o = true) (depth : Nat) :
    Advances env config rules (singleplexFlushNext env config depth) o depth := by
  induction depth with
  | zero =>
    intro engine few
    have empty : engine.pending.find? (·.out = o) = none := by
      rw [List.find?_eq_none]
      exact countP_eq_zero.mp (le_zero.mp few)
    exact ⟨fun frames => .tail (.single .retired) (.exhausted empty), Nat.le_refl _, fun _ member => member⟩
  | succ depth ih =>
    intro engine few
    simp only [singleplexFlushNext]
    let retired : Engine := { engine with inProgress := engine.inProgress.eraseP (·.out = o) }
    have retire : Advanced env config rules [.advance o] [.turn o] o engine retired :=
      ⟨fun frames => .single .retired, Nat.le_refl _, fun _ member => member⟩
    cases found : engine.pending.find? (·.out = o) with
    | none =>
      refine retire.trans ⟨fun frames => .single (.exhausted found), Nat.le_refl _, fun _ member => member⟩
    | some queued =>
      exact retire.trans (@outputTaskQueueFlushOne_spec env config rules _ depth o synchronous ih retired few).1

theorem outputTaskSingleplexFlushNext_advances (synchronous : config.isSynchronous o = true) :
    Advances env config rules (outputTaskSingleplexFlushNext env config) o bound :=
  fun engine _ => singleplexFlushNext_advances synchronous _ engine (Nat.le_refl _)

theorem outputTaskFlushNow_spec (direct : config.isSynchronous o = false) (t : TaskRef)
    (retry : Option RetryRef) (engine : Engine) : Advanced env config rules [.attempt t o retry false]
      (if (outputTaskFlushNow env config t o engine).1 then [] else [.doomed t o retry]) o engine
      (outputTaskFlushNow env config t o engine).2 ∧
    (.flushStarted o t ∈ (outputTaskFlushNow env config t o engine).2.history ∨
      .flushFailed o t ∈ (outputTaskFlushNow env config t o engine).2.history) := by
  have impossible : config.isSynchronous o = true → Advances env config rules
      (outputTaskSingleplexFlushNext env config) o (pendingSize engine o) := by
    intro synchronous
    rw [direct] at synchronous
    cases synchronous
  have flush := @outputTaskFlush_spec env config rules _ _ o impossible engine (Nat.le_refl _) t retry
  rw [direct] at flush
  exact flush

theorem outputTaskSingleplexEnqueue_spec (synchronous : config.isSynchronous o = true) (t : TaskRef)
    (retry : Option RetryRef) (engine : Engine) :
    (∀ frames, Moves env config rules (.attempt t o retry false :: frames, engine.life)
      (frames, (outputTaskSingleplexEnqueue env config retry t o engine).2.life)) ∧
    (.enqueued o t ∈ (outputTaskSingleplexEnqueue env config retry t o engine).2.history ∨
      .enqueueFailed o t ∈ (outputTaskSingleplexEnqueue env config retry t o engine).2.history) ∧
    ((outputTaskSingleplexEnqueue env config retry t o engine).1 = false →
      (engine.pending.any (·.out = o) = true → engine.inProgress.any (·.out = o) = true) → ∀ r, retry = some r →
        ∀ kept ∈ (outputTaskSingleplexEnqueue env config retry t o engine).2.retries, kept.ref ≠ r) := by
  unfold outputTaskSingleplexEnqueue outputTaskQueueEnqueue
  simp only
  split
  · next refusal =>
    split at refusal
    · cases refusal
    · next answer =>
      obtain ⟨-, rfl⟩ := Prod.mk.inj refusal
      have doomed := @advanced_taskRetryDestroy env config rules o t retry
        ((taskUsersInc t engine).tock.record (.enqueueFailed o t))
      refine ⟨fun frames => ?_, .inr ?_, ?_⟩
      · have first : Move env config rules (.attempt t o retry false :: frames, engine.life)
            (.doomed t o retry :: frames, (engine.life.acquire t).act (.enqueueFailed o t)) :=
          .enqueueRefused (Engine.refuses_of_answers (eq_false_iff.mpr answer))
        exact .head first (doomed.moves frames)
      · exact doomed.history_subset _ (mem_cons_self ..)
      · rintro - - r rfl kept member
        have projected := life_taskRetryDestroy ((taskUsersInc t engine).tock.record (.enqueueFailed o t)) r
        have listed : kept ∈ (taskRetryDestroy r
            ((taskUsersInc t engine).tock.record (.enqueueFailed o t))).life.retries := member
        rw [projected] at listed
        exact (mem_retryDestroy.mp listed).2
  · next queued acceptance =>
    split at acceptance
    · obtain ⟨-, rfl⟩ := Prod.mk.inj acceptance
      let entry : TaskEnqueued := { ref := engine.nextRef, task := t, retry := retry, out := o }
      let queued : Engine := { (taskUsersInc t engine).tock.record (.enqueued o t) with
        pending := engine.pending ++ [entry]
        nextRef := engine.nextRef + 1 }
      have first : ∀ frames, Move env config rules (.attempt t o retry false :: frames, engine.life)
          (whenIdle engine.life o ++ frames, queued.life) := fun frames => .enqueued synchronous
      split
      · next idle =>
        have turn : whenIdle engine.life o = [.turn o] := if_pos idle
        rw [turn] at first
        obtain ⟨advanced, failed⟩ := @outputTaskQueueFlushOne_spec env config rules _ (pendingSize queued o) o
          synchronous (outputTaskSingleplexFlushNext_advances synchronous) queued (le_succ _)
        refine ⟨fun frames => .head (first frames) (advanced.moves frames),
          .inl (advanced.history_subset _ (mem_cons_self ..)), ?_⟩
        intro refused discipline r named
        refine failed entry ?_ refused r named
        have nothing : engine.pending.find? (·.out = o) = none := by
          rw [List.find?_eq_none]
          intro waiting member names
          obtain ⟨busy, listed, same⟩ := any_eq_true.mp (discipline (any_eq_true.mpr ⟨waiting, member, names⟩))
          exact List.find?_eq_none.mp (Option.isNone_iff_eq_none.mp idle) busy listed same
        show (engine.pending ++ [entry]).find? (·.out = o) = some entry
        rw [List.find?_append, nothing]
        simp [entry]
      · next busy =>
        have nothing : whenIdle engine.life o = [] := if_neg busy
        rw [nothing] at first
        refine ⟨fun frames => .single (first frames), .inl (mem_cons_self ..), ?_⟩
        intro impossible
        cases impossible
    · cases acceptance

end Queues

end FluentBit
