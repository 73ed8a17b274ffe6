import FluentBit.Engine.Shape
import FluentBit.Engine.TaskSlots

/-! No running task is left behind. A running task has a user or a retry, or the
handler at work will give it one or release it. The functions that fail to start
a flush do not check whether the task is still needed, so this takes flushes
that always start and chunks that can be read. -/

set_option autoImplicit false

namespace FluentBit

open List Bool Tally Runs Life

def FlushStarts (env : Env) (config : Config) (o : OutId) : Prop :=
  if config.isThreaded o = true then ¬env.Refuses (.poolFlush o)
  else ¬env.Refuses (.flushCreate o) ∧ ¬env.Refuses (.pipeWrite o)

variable {env : Env} {config : Config} {rules : Rules} {before after : Stage} {t : TaskRef} {o : OutId}

theorem FlushStarts.pool (starts : FlushStarts env config o) (threaded : config.isThreaded o = true) :
    ¬env.Refuses (.poolFlush o) := by
  rwa [FlushStarts, if_pos threaded] at starts

theorem FlushStarts.direct (starts : FlushStarts env config o) (direct : config.isThreaded o = false) :
    ¬env.Refuses (.flushCreate o) ∧ ¬env.Refuses (.pipeWrite o) := by
  rwa [FlushStarts, if_neg (by simp [direct])] at starts

namespace Frame

inductive Calm : List Frame → Prop where
  | base {frames} : Base frames → Calm frames
  | attempt {t o retry queued frames} : Base frames → Calm (.attempt t o retry queued :: frames)
  | doomed {t o retry frames} : Base frames → Calm (.doomed t o retry :: frames)
  | advance {o frames} : Base frames → Calm (.advance o :: frames)
  | turn {o frames} : Base frames → Calm (.turn o :: frames)

variable {frame : Frame} {frames : List Frame}

theorem Base.above (base : Base (frame :: frames)) :
    ∀ t o retry queued, frame ≠ .attempt t o retry queued ∧ frame ≠ .doomed t o retry ∧
      frame ≠ .advance o ∧ frame ≠ .turn o := by
  intro t o retry queued
  generalize shape : frame :: frames = all at base
  cases base with
  | idle => cases shape
  | starting t' outs rest =>
    cases rest with
    | nil | cons first rest =>
      cases shape
      exact ⟨nofun, nofun, nofun, nofun⟩
  | _ =>
    cases shape
    exact ⟨nofun, nofun, nofun, nofun⟩

theorem Base.of_mem (base : Base frames) (member : frame ∈ frames) :
    ∀ t o retry queued, frame ≠ .attempt t o retry queued ∧ frame ≠ .doomed t o retry := by
  intro t o retry queued
  cases base with
  | idle => cases member
  | starting t' outs rest =>
    simp only [mem_append, mem_map, mem_singleton] at member
    rcases member with ⟨o', -, rfl⟩ | rfl
    · exact ⟨nofun, nofun⟩
    · exact ⟨nofun, nofun⟩
  | _ =>
    rw [mem_singleton.mp member]
    exact ⟨nofun, nofun⟩

theorem Calm.tail (calm : Calm (frame :: frames))
    (work : ∃ t o retry queued, frame = .attempt t o retry queued ∨ frame = .doomed t o retry ∨
      frame = .advance o ∨ frame = .turn o) : Base frames := by
  cases calm with
  | base base =>
    obtain ⟨t, o, retry, queued, shape⟩ := work
    obtain ⟨attempt, doomed, advance, turn⟩ := base.above t o retry queued
    tauto
  | _ => assumption

theorem Calm.attempt_top (calm : Calm frames) {retry : Option RetryRef} {queued : Bool}
    (member : .attempt t o retry queued ∈ frames) : ∃ rest, frames = .attempt t o retry queued :: rest ∧ Base rest := by
  cases calm with
  | base base => exact absurd rfl (base.of_mem member t o retry queued).1
  | attempt base | doomed base | advance base | turn base =>
    rcases mem_cons.mp member with same | later
    · cases same
      try exact ⟨_, rfl, base⟩
    · exact absurd rfl (base.of_mem later t o retry queued).1

end Frame

theorem Move.calm (starts : ∀ o, FlushStarts env config o) (shaped : Frame.Shaped before.1)
    (move : Move env config rules before after) (calm : Frame.Calm before.1) : Frame.Calm after.1 := by
  have tail : ∀ {frame frames life}, before = (frame :: frames, life) →
      (∃ t o retry queued, frame = .attempt t o retry queued ∨ frame = .doomed t o retry ∨
        frame = .advance o ∨ frame = .turn o) → Frame.Base frames := by
    rintro frame frames life rfl work
    exact calm.tail work
  cases move with
  | quiet => exact calm
  | poolRefused _ threaded refused => exact absurd refused ((starts _).pool threaded)
  | createRefused _ direct refused => exact absurd refused ((starts _).direct direct).1
  | pipeRefused _ direct refused => exact absurd refused ((starts _).direct direct).2
  | @run task =>
    have started := Frame.Base.starting task.ref (task.routes.map (·.out)) (task.routes.map (·.out))
    rw [map_map] at started
    exact .base started
  | routeErased | routeLost =>
    obtain ⟨outs, rest, rfl⟩ := Frame.base_of_route shaped
    exact .base (.starting _ outs rest)
  | routeOpened =>
    obtain ⟨outs, rest, rfl⟩ := Frame.base_of_route shaped
    exact .attempt (.starting _ outs rest)
  | begun =>
    rw [Frame.nil_of_starting shaped]
    exact .base .idle
  | @flushed t o retry queued | @postponed t o retry queued =>
    exact .base (tail rfl ⟨_, _, _, _, .inl rfl⟩)
  | @doomed t o r | @undoomed t o => exact .base (tail rfl ⟨t, o, _, true, .inr (.inl rfl)⟩)
  | enqueued =>
    have base := tail rfl ⟨_, _, _, _, .inl rfl⟩
    unfold whenIdle
    split
    · exact .turn base
    · exact .base base
  | enqueueRefused | unreadable => exact .doomed (tail rfl ⟨_, _, _, _, .inl rfl⟩)
  | @popped o => exact .attempt (tail rfl ⟨0, o, none, true, .inr (.inr (.inr rfl))⟩)
  | @exhausted o => exact .base (tail rfl ⟨0, o, none, true, .inr (.inr (.inr rfl))⟩)
  | @retired o => exact .turn (tail rfl ⟨0, o, none, true, .inr (.inr (.inl rfl))⟩)
  | result =>
    unfold whenSynchronous
    split
    · exact .advance (.result _ _)
    · exact .base (.result _ _)
  | delivered | dropped | limitReached => exact .base (.closing _ _)
  | retriedAgain | retriedFirst => exact .base (.unscheduled _ _ _)
  | fired => exact .attempt (.spent _ _)
  | abandoned => exact .base (.spent _ _)
  | _ => exact .base .idle

def Stage.Covers (stage : Stage) (t : TaskRef) : Prop :=
  0 < stage.claimed t ∨ (∃ retry ∈ stage.2.retries, retry.parent = t) ∨
    (∃ o retry queued, .attempt t o retry queued ∈ stage.1) ∨
    (∃ outs, .starting t outs ∈ stage.1) ∧ stage.2.history.any (Action.touches t) = false

def Life.Running (life : Life) (t : TaskRef) : Prop := ∃ task ∈ life.tasks, task.ref = t ∧ task.status = .running

theorem Move.running (move : Move env config rules before after) (running : after.2.Running t) :
    before.2.Running t ∨ ∃ task, before.2.task? t = some task ∧ task.ref = t ∧ task.status = .new ∧
      before.1 = [] ∧ .starting t (task.routes.map (·.out)) ∈ after.1 ∧ after.2.history = before.2.history := by
  obtain ⟨task, member, named, status⟩ := running
  have replaced : ∀ {t' : TaskRef} {change : Task → Task} {tasks : List Task},
      task ∈ Tally.replace Task.ref t' change tasks →
      (∀ task, (change task).ref = task.ref) → (∀ task, (change task).status = task.status) →
      ∃ task ∈ tasks, task.ref = t ∧ task.status = .running := by
    intro t' change tasks listed refs statuses
    obtain ⟨old, oldListed, changed⟩ := mem_replace.mp listed
    refine ⟨old, oldListed, ?_⟩
    rw [← named, ← status, ← changed]
    split
    · exact ⟨(refs old).symm, (statuses old).symm⟩
    · exact ⟨rfl, rfl⟩
  have released : ∀ {life : Life} {t' : TaskRef}, task ∈ (life.release t').tasks → task ∈ life.tasks := by
    intro life t' listed
    rcases release_cases t' life with ⟨same, -⟩ | ⟨other, -, -, -, same⟩
    · rwa [same] at listed
    · rw [same] at listed
      exact (mem_discard.mp listed).1
  cases move with
  | quiet quiet => exact .inl ⟨task, quiet.tasks ▸ member, named, status⟩
  | created _ isNew =>
    rcases mem_append.mp member with old | new
    · exact .inl ⟨task, old, named, status⟩
    · rw [mem_singleton.mp new, isNew] at status
      cases status
  | destroyed =>
    rw [destroy_eq] at member
    exact .inl ⟨task, (mem_discard.mp member).1, named, status⟩
  | @run started life found isNew =>
    obtain ⟨old, listed, changed⟩ := mem_replace.mp member
    by_cases same : old.ref = started.ref
    · have sameTask : started.ref = t := by
        rw [← named, ← changed, if_pos same]
        exact same.symm
      subst sameTask
      exact .inr ⟨started, found, rfl, isNew, rfl, by simp, rfl⟩
    · rw [if_neg same] at changed
      exact .inl ⟨task, changed ▸ listed, named, status⟩
  | finished =>
    have listed := released member
    rw [retryClean_eq] at listed
    exact .inl (replaced listed (fun _ => rfl) (fun _ => rfl))
  | unschedulable | abandoned =>
    have listed := released member
    exact .inl ⟨task, listed, named, status⟩
  | routeDropped | phase | erased | routeErased | flushed | enqueued | enqueueRefused | popped
  | retriedAgain | retriedFirst => exact .inl (replaced member (fun _ => rfl) (fun _ => rfl))
  | _ => exact .inl ⟨task, member, named, status⟩

theorem Move.claimed (sound : Sound before) (move : Move env config rules before after) (held : 0 < before.claimed t) :
    0 < after.claimed t ∨ (∃ o retry queued rest, after.1 = .attempt t o retry queued :: rest) ∨
      (∃ o, before.1 = [.closing t o]) ∨ ∃ retry ∈ after.2.retries, retry.parent = t := by
  cases move with
  | quiet quiet =>
    refine .inl ?_
    simpa [Stage.claimed, quiet.flushes, quiet.pending, quiet.history] using held
  | destroyed =>
    rw [destroy_eq]
    exact .inl held
  | @phase flush phase status life =>
    refine .inl ?_
    have same : Stage.claimed ([], life.setPhase flush.ref phase) t = Stage.claimed ([], life) t := by
      simp only [Stage.claimed, ← countP_flush_task, setPhase_tasks]
      rfl
    exact same.symm ▸ held
  | @popped o entry frames life found =>
    by_cases own : entry.task = t
    · exact .inr (.inl ⟨o, entry.retry, true, frames, own ▸ rfl⟩)
    · refine .inl ?_
      have moved := countP_eraseP (q := fun entry => decide (entry.task = t)) found
      simp only [own, decide_false, false_eq_true, if_false, Nat.add_zero] at moved
      simp only [Stage.claimed, pop, dismiss, setTask, moved] at held ⊢
      simpa [Frame.holds] using held
  | @result f flush t' life found slot =>
    refine .inl ?_
    have same := sound.result_task slot
    have moved := countP_eraseP (q := fun flush => decide (flush.task = t)) found
    simp only [Stage.claimed, moved, same] at held ⊢
    by_cases own : flush.task = t
    · simp [Frame.holds, own]
    · simpa [Frame.holds, own] using held
  | @finished t' o life =>
    by_cases own : t' = t
    · exact .inr (.inr (.inl ⟨o, own ▸ rfl⟩))
    · refine .inl ?_
      rw [retryClean_eq]
      rcases release_cases t' _ with ⟨same, -⟩ | ⟨task, -, -, -, same⟩
      · rw [same]
        simpa [Stage.claimed, Frame.holds, own] using held
      · rw [same]
        simpa [Stage.claimed, Frame.holds, Action.refuses, own] using held
  | @retriedAgain t' o retry life found =>
    by_cases own : t' = t
    · obtain ⟨listed, parent, -⟩ := findRetry_some found
      refine .inr (.inr (.inr ⟨{ retry with attempts := retry.attempts + 1 }, ?_, parent.trans own⟩))
      exact mem_replace.mpr ⟨retry, listed, if_pos rfl⟩
    · refine .inl ?_
      simpa [Stage.claimed, Frame.holds, own] using held
  | @retriedFirst t' o life =>
    by_cases own : t' = t
    · exact .inr (.inr (.inr ⟨_, mem_append_right _ (mem_singleton_self _), own⟩))
    · refine .inl ?_
      simpa [Stage.claimed, Frame.holds, own] using held
  | @unschedulable t' | @abandoned t' =>
    refine .inl ?_
    rcases release_cases t' _ with ⟨same, -⟩ | ⟨task, -, -, -, same⟩
    · rw [same]
      simpa [Stage.claimed, Frame.holds] using held
    · rw [same]
      simpa [Stage.claimed, Frame.holds, Action.refuses] using held
  | flushed | enqueued | enqueueRefused =>
    refine .inl (Nat.lt_of_lt_of_le held ?_)
    simp only [Stage.claimed]
    simp [Frame.holds, Action.refuses, countP_cons]
  | run => exact .inl (by simpa [Stage.claimed, Frame.holds, -countP_map] using held)
  | _ => exact .inl (by simpa [Stage.claimed, Frame.holds, Action.refuses, countP_afterFailure] using held)

def Stage.Justifies (stage : Stage) : Frame → Prop
  | .attempt _ _ (some r) false => ∃ retry ∈ stage.2.retries, retry.ref = r
  | .doomed t _ (some _) => 0 < stage.claimed t
  | _ => True

structure Covered (stage : Stage) : Prop where
  calm : Frame.Calm stage.1
  tasks : ∀ t, stage.2.Running t → stage.Covers t
  justified : ∀ frame ∈ stage.1, stage.Justifies frame

variable {life : Life} {frames : List Frame}

private theorem covers_release (sound : Sound (frames, life.release t)) (running : (life.release t).Running t) :
    Stage.Covers (frames, life.release t) t := by
  obtain ⟨task, member, named, -⟩ := running
  rcases release_cases t life with ⟨same, busy⟩ | ⟨gone, found, -, -, released⟩
  · rw [same] at sound member ⊢
    obtain ⟨other, found⟩ := task?_isSome (mem_taskRefs.mpr ⟨task, member, named⟩)
    obtain ⟨listed, sameRef⟩ := task?_some found
    have inUse := busy other found
    simp only [isIdle, and_eq_false_iff, decide_eq_false_iff_not, noRetries] at inUse
    rcases inUse with used | retries
    · refine .inl (Nat.pos_of_ne_zero fun none => used ?_)
      have users := sound.users other listed
      rw [sameRef, none] at users
      exact users
    · obtain ⟨retry, kept, parent⟩ := all_eq_false.mp retries
      exact .inr (.inl ⟨retry, kept, by simpa [sameRef] using parent⟩)
  · rw [released] at member
    have different := (mem_discard.mp member).2
    exact absurd (named.trans (task?_some found).2.symm) different

theorem Move.retry_kept (wellFormed : WellFormed before) (covered : Covered before)
    (move : Move env config rules before after) {retry : TaskRetry} (member : retry ∈ before.2.retries)
    (running : after.2.Running retry.parent) : after.Covers retry.parent := by
  have soundAfter := wellFormed.sound.step move
  have owned : ∀ {token : Token}, token ∈ before.tokens → token.retry = retry.ref →
      token.task = retry.parent := fun listed same =>
    ((wellFormed.matched _ listed).2 retry member same.symm).1.symm
  cases move with
  | quiet quiet => exact .inr (.inl ⟨retry, quiet.retries ▸ member, rfl⟩)
  | @destroyed task life found _ =>
    have different : retry.parent ≠ task.ref := by
      intro same
      obtain ⟨other, listed, named, -⟩ := running
      rw [destroy_eq] at listed
      exact (mem_discard.mp listed).2 (named.trans same)
    refine .inr (.inl ⟨retry, ?_, rfl⟩)
    rw [destroy_eq]
    refine mem_filter.mpr ⟨member, ?_⟩
    rw [decide_eq_true_eq]
    intro removed
    obtain ⟨other, listed, sameRef⟩ := mem_map.mp removed
    obtain ⟨live, parent⟩ := mem_filter.mp listed
    have identical : other = retry := inj_on_of_nodup_map wellFormed.sound.retriesDistinct live member sameRef
    exact different (identical ▸ of_decide_eq_true parent)
  | @doomed t o r frames life =>
    by_cases same : retry.ref = r
    · have parent : t = retry.parent := @owned ⟨t, o, r⟩
        (Stage.mem_tokens.mpr (.inr ⟨_, mem_cons_self .., rfl⟩)) same.symm
      have held : 0 < _ := covered.justified (.doomed t o (some r)) (mem_cons_self ..)
      refine .inl ?_
      rw [← parent]
      simpa [Stage.claimed, Frame.holds] using held
    · exact .inr (.inl ⟨retry, mem_retryDestroy.mpr ⟨member, same⟩, rfl⟩)
  | @limitReached t o lost life found =>
    obtain ⟨listed, parent, -⟩ := findRetry_some found
    by_cases same : retry.ref = lost.ref
    · have identical : retry = lost := inj_on_of_nodup_map wellFormed.sound.retriesDistinct member listed same
      refine .inl ?_
      rw [identical, parent]
      simp [Stage.claimed, Frame.holds]
    · exact .inr (.inl ⟨retry, mem_retryDestroy.mpr ⟨member, same⟩, rfl⟩)
  | @finished t o life =>
    by_cases same : retry.parent = t
    · rw [same] at running ⊢
      exact covers_release soundAfter running
    · refine .inr (.inl ⟨retry, ?_, rfl⟩)
      rw [release_eq]
      rcases retryClean_cases t o life with ⟨cleaned, -⟩ | ⟨lost, found, cleaned⟩
      · rw [cleaned]
        exact member
      · rw [cleaned]
        obtain ⟨listed, parent, -⟩ := findRetry_some found
        refine mem_retryDestroy.mpr ⟨member, fun sameRef => same ?_⟩
        rw [inj_on_of_nodup_map wellFormed.sound.retriesDistinct member listed sameRef, parent]
  | @unschedulable t o r life | @abandoned t o r req life =>
    by_cases same : retry.ref = r
    · have parent : t = retry.parent := @owned ⟨t, o, r⟩
        (Stage.mem_tokens.mpr (.inr ⟨_, mem_cons_self .., rfl⟩)) same.symm
      rw [← parent] at running ⊢
      exact covers_release soundAfter running
    · refine .inr (.inl ⟨retry, ?_, rfl⟩)
      rw [release_eq]
      exact mem_retryDestroy.mpr ⟨member, same⟩
  | @retriedAgain t o again life =>
    refine .inr (.inl ⟨if retry.ref = again.ref then { retry with attempts := retry.attempts + 1 } else retry,
      mem_replace.mpr ⟨retry, member, rfl⟩, ?_⟩)
    split
    · rfl
    · rfl
  | retriedFirst => exact .inr (.inl ⟨retry, mem_append_left _ member, rfl⟩)
  | _ => exact .inr (.inl ⟨retry, member, rfl⟩)

theorem Move.attempt_kept (starts : ∀ o, FlushStarts env config o) (reads : ¬rules.unreads)
    (wellFormed : WellFormed before) (covered : Covered before) (move : Move env config rules before after)
    {retry : Option RetryRef} {queued : Bool} (member : .attempt t o retry queued ∈ before.1)
    (running : after.2.Running t) : after.Covers t := by
  have soundAfter := wellFormed.sound.step move
  obtain ⟨frames, life⟩ := before
  obtain ⟨rest, top, -⟩ := covered.calm.attempt_top member
  simp only at top
  subst top
  cases move with
  | quiet => exact .inr (.inr (.inl ⟨o, retry, queued, member⟩))
  | flushed =>
    refine .inl ?_
    simp [Stage.claimed]
  | poolRefused _ threaded refused => exact absurd refused ((starts _).pool threaded)
  | createRefused _ direct refused => exact absurd refused ((starts _).direct direct).1
  | pipeRefused _ direct refused => exact absurd refused ((starts _).direct direct).2
  | enqueued =>
    refine .inl ?_
    simp [Stage.claimed]
  | enqueueRefused =>
    refine .inl ?_
    simp [Stage.claimed, Action.refuses]
  | unreadable refused => exact absurd refused reads
  | @postponed _ _ r request =>
    obtain ⟨kept, listed, named⟩ := covered.justified (.attempt t o (some r) false) (mem_cons_self ..)
    obtain ⟨-, parents⟩ := wellFormed.matched ⟨t, o, r⟩ (Stage.mem_tokens.mpr (.inr ⟨_, mem_cons_self .., rfl⟩))
    exact .inr (.inl ⟨kept, listed, (parents kept listed named).1⟩)
  | abandoned => exact covers_release soundAfter running

theorem Move.starting_kept (wellFormed : WellFormed before) (starts : ∀ o, FlushStarts env config o)
    (move : Move env config rules before after) {outs : List OutId} (member : .starting t outs ∈ before.1)
    (untouched : before.2.history.any (Action.touches t) = false) : after.Covers t := by
  have kept : ∀ {frames : List Frame}, after.1 = frames → .starting t outs ∈ frames →
      after.2.history.any (Action.touches t) = false → after.Covers t := by
    rintro frames rfl listed none
    exact .inr (.inr (.inr ⟨⟨outs, listed⟩, none⟩))
  have tail : ∀ {frame : Frame} {frames : List Frame}, .starting t outs ∈ frame :: frames →
      frame ≠ .starting t outs → .starting t outs ∈ frames := by
    intro frame frames listed different
    rcases mem_cons.mp listed with same | later
    · exact absurd same.symm different
    · exact later
  cases move with
  | quiet quiet => exact kept rfl member (quiet.history ▸ untouched)
  | created | leaked | destroyed | routeDropped | dropCounted | phase | erased | run | result | fired
  | rescheduled | rescheduleRefused => cases member
  | routeErased | routeLost => exact kept rfl (tail member (by simp)) untouched
  | routeOpened => exact kept rfl (mem_cons_of_mem _ (tail member (by simp))) untouched
  | @begun t' outs' o frames life touched =>
    have alone := Frame.nil_of_starting wellFormed.shaped
    subst alone
    cases mem_singleton.mp member
    exfalso
    rw [any_eq_false] at untouched
    rcases touched with action | action | action | action
    · exact untouched _ action (by simp [Action.touches])
    · exact untouched _ action (by simp [Action.touches])
    · exact untouched _ action (by simp [Action.touches])
    · exact untouched _ action (by simp [Action.touches])
  | @flushed t' =>
    by_cases same : t' = t
    · subst same
      exact .inl (by simp [Stage.claimed])
    · exact kept rfl (tail member (by simp)) (by simpa [Action.touches, same] using untouched)
  | @enqueued t' =>
    by_cases same : t' = t
    · subst same
      exact .inl (by simp [Stage.claimed])
    · exact kept rfl (mem_append_right _ (tail member (by simp))) (by simpa [Action.touches, same] using untouched)
  | @enqueueRefused t' =>
    by_cases same : t' = t
    · subst same
      exact .inl (by simp [Stage.claimed, Action.refuses])
    · exact kept rfl (mem_cons_of_mem _ (tail member (by simp))) (by simpa [Action.touches, same] using untouched)
  | poolRefused _ threaded refused => exact absurd refused ((starts _).pool threaded)
  | createRefused _ direct refused => exact absurd refused ((starts _).direct direct).1
  | pipeRefused _ direct refused => exact absurd refused ((starts _).direct direct).2
  | doomed | undoomed | exhausted | postponed => exact kept rfl (tail member (by simp)) untouched
  | popped | retired | unreadable => exact kept rfl (mem_cons_of_mem _ (tail member (by simp))) untouched
  | delivered | dropped | limitReached | finished | retriedAgain | retriedFirst | scheduled | unschedulable
  | spent | forgotten | abandoned => simp at member

theorem Frame.Base.justified (base : Base frames) (stage : Stage) : ∀ frame ∈ frames, stage.Justifies frame := by
  intro frame member
  cases base with
  | idle => cases member
  | starting t' outs rest =>
    simp only [mem_append, mem_map, mem_singleton] at member
    rcases member with ⟨o, -, rfl⟩ | rfl
    · trivial
    · trivial
  | _ =>
    rw [mem_singleton.mp member]
    trivial

theorem Stage.Justifies.quiet {life' : Life} {frame : Frame} (justifies : Stage.Justifies (frames, life) frame)
    (quiet : Quiet life life') : Stage.Justifies (frames, life') frame := by
  unfold Stage.Justifies at justifies ⊢
  split
  · simp only at justifies
    rwa [quiet.retries]
  · simp only [Stage.claimed, quiet.flushes, quiet.pending, quiet.history] at justifies ⊢
    exact justifies
  · trivial

section

variable (starts : ∀ o, FlushStarts env config o) (reads : ¬rules.unreads)
include starts reads

theorem Move.justified (shaped : Frame.Shaped before.1) (covered : Covered before)
    (move : Move env config rules before after) : ∀ frame ∈ after.1, after.Justifies frame := by
  have tail : ∀ {frame frames life}, before = (frame :: frames, life) →
      (∃ t o retry queued, frame = .attempt t o retry queued ∨ frame = .doomed t o retry ∨
        frame = .advance o ∨ frame = .turn o) → ∀ frame ∈ frames, after.Justifies frame := by
    rintro frame frames life rfl work
    exact (covered.calm.tail work).justified after
  have cons : ∀ {top : Frame} {frames : List Frame}, after.Justifies top →
      (∀ frame ∈ frames, after.Justifies frame) → ∀ frame ∈ top :: frames, after.Justifies frame := by
    intro top frames first later frame member
    rcases mem_cons.mp member with rfl | listed
    · exact first
    · exact later frame listed
  cases move with
  | quiet quiet => exact fun frame member => (covered.justified frame member).quiet quiet
  | poolRefused _ threaded refused => exact absurd refused ((starts _).pool threaded)
  | createRefused _ direct refused => exact absurd refused ((starts _).direct direct).1
  | pipeRefused _ direct refused => exact absurd refused ((starts _).direct direct).2
  | unreadable refused => exact absurd refused reads
  | @run task =>
    have started := Frame.Base.starting task.ref (task.routes.map (·.out)) (task.routes.map (·.out))
    rw [map_map] at started
    exact started.justified _
  | routeErased | routeLost =>
    obtain ⟨outs, rest, rfl⟩ := Frame.base_of_route shaped
    exact (Frame.Base.starting _ outs rest).justified _
  | routeOpened =>
    obtain ⟨outs, rest, rfl⟩ := Frame.base_of_route shaped
    exact cons trivial ((Frame.Base.starting _ outs rest).justified _)
  | begun =>
    rw [Frame.nil_of_starting shaped]
    exact Frame.Base.idle.justified _
  | flushed | postponed => exact tail rfl ⟨_, _, _, _, .inl rfl⟩
  | @doomed t o r | @undoomed t o => exact tail rfl ⟨t, o, _, true, .inr (.inl rfl)⟩
  | enqueued =>
    intro frame member
    rcases mem_append.mp member with turn | later
    · rw [Frame.mem_whenIdle turn]
      trivial
    · exact tail rfl ⟨_, _, _, _, .inl rfl⟩ frame later
  | @enqueueRefused t o retry =>
    refine cons ?_ (tail rfl ⟨_, _, _, _, .inl rfl⟩)
    cases retry with
    | none => trivial
    | some r => simp [Stage.Justifies, Stage.claimed, Action.refuses]
  | @popped o => exact cons (by simp [Stage.Justifies]) (tail rfl ⟨0, o, none, true, .inr (.inr (.inr rfl))⟩)
  | @exhausted o => exact tail rfl ⟨0, o, none, true, .inr (.inr (.inr rfl))⟩
  | @retired o => exact cons trivial (tail rfl ⟨0, o, none, true, .inr (.inr (.inl rfl))⟩)
  | result =>
    intro frame member
    rcases mem_append.mp member with advance | last
    · rw [Frame.mem_whenSynchronous advance]
      trivial
    · rw [mem_singleton.mp last]
      trivial
  | fired _ listed => exact cons ⟨_, listed, rfl⟩ ((Frame.Base.spent _ _).justified _)
  | delivered | dropped | limitReached => exact (Frame.Base.closing _ _).justified _
  | retriedAgain | retriedFirst => exact (Frame.Base.unscheduled _ _ _).justified _
  | abandoned => exact (Frame.Base.spent _ _).justified _
  | _ => exact Frame.Base.idle.justified _

theorem Covered.step (wellFormed : WellFormed before) (covered : Covered before)
    (move : Move env config rules before after) : Covered after := by
  have soundAfter := wellFormed.sound.step move
  have calm := move.calm starts wellFormed.shaped covered.calm
  refine ⟨calm, ?_, move.justified starts reads wellFormed.shaped covered⟩
  · intro t running
    rcases move.running running with earlier | ⟨task, found, named, isNew, -, started, same⟩
    · rcases covered.tasks t earlier with held | ⟨retry, listed, rfl⟩ | ⟨o, retry, queued, member⟩ |
        ⟨⟨outs, member⟩, untouched⟩
      · rcases move.claimed wellFormed.sound held with still | ⟨o, retry, queued, rest, top⟩ | ⟨o, top⟩ | retried
        · exact .inl still
        · exact .inr (.inr (.inl ⟨o, retry, queued, by rw [top]; exact mem_cons_self ..⟩))
        · obtain ⟨frames, life⟩ := before
          simp only at top
          subst top
          cases move with
          | quiet quiet =>
            refine .inl ?_
            simpa [Stage.claimed, quiet.flushes, quiet.pending, quiet.history] using held
          | finished => exact covers_release soundAfter running
        · exact .inr (.inl retried)
      · exact move.retry_kept wellFormed covered listed running
      · exact move.attempt_kept starts reads wellFormed covered member running
      · exact move.starting_kept wellFormed starts member untouched
    · have clean := (wellFormed.sound.untouched task (task?_some found).1 isNew).2
      rw [named, ← same] at clean
      exact .inr (.inr (.inr ⟨⟨_, started⟩, clean⟩))

end

theorem Move.createFailed (move : Move env config rules before after)
    (failed : .taskCreateFailed t ∈ after.2.history) : .taskCreateFailed t ∈ before.2.history ∨
      t = before.2.nextRef ∧ before.2.nextRef < after.2.nextRef ∧ after.2.taskRefs = before.2.taskRefs := by
  have released : ∀ {life : Life} {t' : TaskRef}, .taskCreateFailed t ∈ (life.release t').history →
      .taskCreateFailed t ∈ life.history := by
    intro life t' listed
    rcases release_cases t' life with ⟨same, -⟩ | ⟨task, -, -, -, same⟩
    · rwa [same] at listed
    · rw [same] at listed
      simpa using listed
  cases move with
  | quiet quiet => exact .inl (quiet.history ▸ failed)
  | leaked =>
    rcases mem_cons.mp failed with same | earlier
    · cases same
      exact .inr ⟨rfl, Nat.lt_succ_self _, rfl⟩
    · exact .inl earlier
  | destroyed =>
    rw [destroy_eq] at failed
    exact .inl failed
  | finished =>
    have listed := released failed
    rw [retryClean_eq] at listed
    exact .inl listed
  | unschedulable | abandoned =>
    have listed := released failed
    exact .inl listed
  | _ => exact .inl (by simpa using failed)

def FailedApart (stage : Stage) : Prop :=
  ∀ t, .taskCreateFailed t ∈ stage.2.history → t < stage.2.nextRef ∧ t ∉ stage.2.taskRefs

theorem FailedApart.step (apart : FailedApart before) (sound : Sound before)
    (move : Move env config rules before after) : FailedApart after := by
  intro t failed
  rcases move.createFailed failed with earlier | ⟨rfl, grows, same⟩
  · obtain ⟨old, absent⟩ := apart t earlier
    refine ⟨Nat.lt_of_lt_of_le old move.nextRef_le, fun live => ?_⟩
    rcases move.taskEffect.refs with same | grown | shrunk
    · exact absent (same ▸ live)
    · rw [grown] at live
      rcases mem_append.mp live with listed | fresh
      · exact absent listed
      · rw [mem_singleton.mp fresh] at old
        exact Nat.lt_irrefl _ old
    · exact absent (shrunk.subset live)
  · refine ⟨grows, fun live => ?_⟩
    rw [same] at live
    exact Nat.lt_irrefl _ (sound.allocated _ live)

theorem Moves.aged (moves : Moves env config rules before after) (sound : Sound before) (running : before.2.Running t) :
    (∀ task ∈ after.2.tasks, task.ref = t → task.status = .running) ∧ t < after.2.nextRef ∧
      (.taskCreateFailed t ∉ before.2.history → .taskCreateFailed t ∉ after.2.history) := by
  obtain ⟨old, live, rfl, status⟩ := running
  have allocated : old.ref < before.2.nextRef := sound.allocated _ (mem_taskRefs.mpr ⟨old, live, rfl⟩)
  induction moves with
  | refl =>
    refine ⟨?_, allocated, fun absent => absent⟩
    intro task member same
    rw [inj_on_of_nodup_map sound.distinct member live same, status]
  | tail earlier move ih =>
    obtain ⟨ran, older, absent⟩ := ih
    refine ⟨?_, Nat.lt_of_lt_of_le older move.nextRef_le, ?_⟩
    · intro task member same
      by_contra stopped
      have isNew : task.status = .new := by
        cases shape : task.status with
        | new => rfl
        | running => exact absurd shape stopped
      rcases move.new_tasks member isNew with ⟨before, listed, sameRef, wasNew⟩ | fresh
      · rw [ran before listed (sameRef.trans same)] at wasNew
        cases wasNew
      · rw [← fresh, same] at older
        exact Nat.lt_irrefl _ older
    · intro none failed
      rcases move.createFailed failed with listed | ⟨fresh, -⟩
      · exact absent none listed
      · rw [fresh] at older
        exact Nat.lt_irrefl _ older

section Runs

variable {onDisk : OnDisk} {engine : Engine}

/-- A timer finds the chunk of its retry readable, if it can be set up. -/
def Readable (env : Env) (config : Config) (engine : Engine) (event : Event) : Prop :=
  ∀ req, event = .schedTimer req → ¬TimerUnread env config req engine

section

variable (starts : ∀ o, FlushStarts env config o)
  (path : Runs.Path (step env config) (Readable env config) (started onDisk) engine)
include starts path

private theorem covered_reachable :
    WellFormed ([], engine.life) ∧ Covered ([], engine.life) ∧ FailedApart ([], engine.life) := by
  refine moves_invariant (fun stage => Covered stage ∧ FailedApart stage) ⟨⟨.base .idle, ?_, ?_⟩, ?_⟩ ?_ path
  · rintro t ⟨task, live, -⟩
    cases live
  · intro frame member
    cases member
  · intro t failed
    cases failed
  · intro engine event _ _ readable before after _ _ move wellFormed held
    have reads : ¬(engineRules env config engine event).unreads := fun ⟨req, same, unread⟩ => readable req same unread
    exact ⟨held.1.step starts reads wellFormed move, held.2.step wellFormed.sound move⟩

private theorem held_reachable : ∀ task ∈ engine.tasks, task.status = .running →
      0 < task.users ∨ ∃ retry ∈ engine.retries, retry.parent = task.ref := by
  intro task live status
  obtain ⟨wellFormed, covered, -⟩ := covered_reachable starts path
  rcases covered.tasks task.ref ⟨task, live, rfl, status⟩ with held | retried | ⟨o, retry, queued, member⟩ |
    ⟨⟨outs, member⟩, -⟩
  · refine .inl ?_
    rw [wellFormed.sound.users task live]
    exact Int.natCast_pos.mpr held
  · exact .inr retried
  · cases member
  · cases member

end

/-- In every run in which flushes start and retries can read their chunks, a running task
has a user or a retry, and a task that loses the last of these is destroyed and
its slot is free. -/
theorem running_tasks_are_held (starts : ∀ o, FlushStarts env config o)
    (path : Runs.Path (step env config) (Readable env config) (started onDisk) engine) :
    (∀ task ∈ engine.tasks, task.status = .running →
      0 < task.users ∨ ∃ retry ∈ engine.retries, retry.parent = task.ref) ∧
    ∀ event, Readable env config engine event → ∀ task ∈ engine.tasks, task.status = .running →
      (∃ later ∈ (step env config event engine).tasks, later.ref = task.ref ∧
        (0 < later.users ∨ ∃ retry ∈ (step env config event engine).retries, retry.parent = task.ref)) ∨
      (∀ later ∈ (step env config event engine).tasks, later.ref ≠ task.ref) ∧
        (step env config event engine).tasksMap task.id ≠ some task.ref := by
  refine ⟨held_reachable starts path, fun event readable task live status => ?_⟩
  obtain ⟨wellFormed, -, apart⟩ := covered_reachable starts path
  have next := path.next readable
  obtain ⟨ran, -, absent⟩ := Moves.aged (@step_moves env config engine wellFormed.sound event)
    wellFormed.sound ⟨task, live, rfl, status⟩
  by_cases alive : ∃ later ∈ (step env config event engine).tasks, later.ref = task.ref
  · obtain ⟨later, listed, same⟩ := alive
    have held := held_reachable starts next later listed (ran later listed same)
    rw [same] at held
    exact .inl ⟨later, listed, same, held⟩
  · have gone : ∀ later ∈ (step env config event engine).tasks, later.ref ≠ task.ref :=
      fun later listed same => alive ⟨later, listed, same⟩
    refine .inr ⟨gone, fun taken => ?_⟩
    have unfailed : .taskCreateFailed task.ref ∉ engine.life.history := fun failed =>
      (apart task.ref failed).2 (mem_taskRefs.mpr ⟨task, live, rfl⟩)
    obtain ⟨-, ⟨owner, listed, same, -⟩ | failed⟩ := (sound_reachable next).owners task.id task.ref taken
    · exact gone owner listed same
    · exact absent unfailed failed

end Runs

namespace Sample

def retrying : Config := Sample.config .mem [{ output 0 with retryLimit := 1 }] (by decide)

end Sample

open Sample in
theorem flushStarts_willing (config : Config) (o : OutId) : FlushStarts willing config o := by
  unfold FlushStarts
  split
  · exact willing_never_refuses _
  · exact ⟨willing_never_refuses _, willing_never_refuses _⟩

open Sample in
theorem running_tasks_are_held_retrying : (∀ o, FlushStarts willing retrying o) ∧
      ∀ task ∈ (Runs.after (step willing retrying) (started noDisk) [.append (logs [1]), .dispatch 0]).tasks,
        task.status = .running → 0 < task.users ∨ ∃ retry ∈ (Runs.after (step willing retrying) (started noDisk)
            [.append (logs [1]), .dispatch 0]).retries, retry.parent = task.ref := by
  refine ⟨flushStarts_willing retrying, ?_⟩
  exact (running_tasks_are_held (flushStarts_willing retrying)
    (path_after [.append (logs [1]), .dispatch 0] ⟨nofun, nofun, trivial⟩)).1

open Sample in
/-- A task whose first flush cannot be created runs forever. -/
theorem running_task_left_behind : ¬∀ (env : Env) (config : Config) (onDisk : OnDisk) (engine : Engine),
      Runs.Path (step env config) anyEvent (started onDisk) engine → ∀ task ∈ engine.tasks,
        task.status = .running → 0 < task.users ∨ ∃ retry ∈ engine.retries, retry.parent = task.ref := by
  intro holds
  let refusing := Sample.env fun site _ => decide (site = .flushCreate 0)
  have held := holds refusing retrying noDisk _
    (reached (step refusing retrying) (started noDisk) [.append (logs [1]), .dispatch 0])
  revert held
  decide +kernel

end FluentBit
