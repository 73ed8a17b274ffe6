import FluentBit.Engine.LifecycleProperties

/-! Every move of a handler keeps the life-cycle machine sound. -/

set_option autoImplicit false

namespace FluentBit

open List Nat Tally Life

variable {env : Env} {config : Config} {rules : Rules} {before after : Stage}

def Task.place (task : Task) : TaskRef × Nat := (task.ref, task.id)

variable {tasks : List Task} {change : Task → Task}
variable {t : TaskRef}

private theorem place_replace (keeps : ∀ task, (change task).place = task.place) :
    (Tally.replace Task.ref t change tasks).map Task.place = tasks.map Task.place :=
  map_replace_of_fixed keeps

private theorem place_discard : (discard Task.ref t tasks).map Task.place =
      (tasks.map Task.place).filter fun place => decide (place.1 ≠ t) := by
  simp only [Tally.discard, filter_map]
  rfl

inductive TaskEffect (before after : Life) : Prop where
  | kept : after.tasks.map Task.place = before.tasks.map Task.place →
      after.tasksMap = before.tasksMap → TaskEffect before after
  | created {task : Task} : task.ref = before.nextRef → task.id < tasksMapSize →
      before.tasksMap task.id = none → after = before.create task → TaskEffect before after
  | leaked {id : Nat} : id < tasksMapSize → before.tasksMap id = none → after = before.leakSlot id →
      TaskEffect before after
  | gone {task : Task} : task.place ∈ before.tasks.map Task.place →
      after.tasks.map Task.place =
        (before.tasks.map Task.place).filter (fun place => decide (place.1 ≠ task.ref)) →
      after.tasksMap = (fun slot => if slot = task.id then none else before.tasksMap slot) →
      TaskEffect before after

theorem TaskEffect.of_release {before middle : Life}
    (places : middle.tasks.map Task.place = before.tasks.map Task.place) (slots : middle.tasksMap = before.tasksMap) :
    TaskEffect before (middle.release t) := by
  rcases release_cases t middle with ⟨same, -⟩ | ⟨task, found, -, -, released⟩
  · rw [same]
    exact .kept places slots
  · obtain ⟨member, -⟩ := task?_some found
    rw [released]
    refine @TaskEffect.gone _ _ task ?_ ?_ ?_
    · rw [← places]
      exact mem_map_of_mem member
    · rw [place_discard, places]
    · rw [← slots]

section

variable (move : Move env config rules before after)
include move

theorem Move.taskEffect : TaskEffect before.2 after.2 := by
  cases move with
  | quiet quiet => exact .kept (by rw [quiet.tasks]) quiet.tasksMap
  | created fresh _ _ bounded free _ => exact .created fresh bounded free rfl
  | leaked _ bounded free => exact .leaked bounded free rfl
  | @destroyed task life found _ =>
    obtain ⟨member, -⟩ := task?_some found
    rw [destroy_eq]
    exact .gone (mem_map_of_mem member) place_discard rfl
  | finished =>
    rw [retryClean_eq]
    exact .of_release (place_replace fun _ => rfl) rfl
  | unschedulable | abandoned => exact .of_release rfl rfl
  | routeDropped | phase | erased | run | routeErased | flushed | enqueued | enqueueRefused | popped
  | retriedAgain | retriedFirst => exact .kept (place_replace fun _ => rfl) rfl
  | dropCounted | routeLost | routeOpened | begun | poolRefused | createRefused | pipeRefused | doomed
  | undoomed | exhausted | retired | result | delivered | dropped | limitReached | scheduled | fired
  | unreadable | postponed | spent | forgotten | rescheduled | rescheduleRefused => exact .kept rfl rfl

theorem Move.nextRef_le : before.2.nextRef ≤ after.2.nextRef := by
  cases move with
  | quiet quiet => exact quiet.nextRef
  | destroyed => rw [destroy_eq]
  | finished =>
    rw [retryClean_eq, release_eq]
    exact Nat.le_refl _
  | unschedulable | abandoned => rw [release_eq]; exact Nat.le_refl _
  | created | leaked | flushed | enqueued | retriedFirst | scheduled | postponed | rescheduled =>
    exact le_succ _
  | _ => exact Nat.le_refl _

theorem Move.history_suffix : before.2.history <:+ after.2.history := by
  cases move with
  | quiet quiet => rw [quiet.history]
  | destroyed => rw [destroy_eq]
  | finished =>
    rw [retryClean_eq]
    exact history_release (suffix_refl _)
  | unschedulable | abandoned => exact history_release (suffix_refl _)
  | leaked | dropCounted | flushed | poolRefused | createRefused | pipeRefused | enqueued | enqueueRefused
  | dropped | limitReached => exact suffix_cons _ _
  | _ => exact suffix_refl _

end

private theorem taskRefs_eq (life : Life) : life.taskRefs = (life.tasks.map Task.place).map Prod.fst := by
  rw [map_map]
  rfl

theorem TaskEffect.refs {before after : Life} (effect : TaskEffect before after) :
    after.taskRefs = before.taskRefs ∨ after.taskRefs = before.taskRefs ++ [before.nextRef] ∨
      after.taskRefs.Sublist before.taskRefs := by
  cases effect with
  | kept places _ => exact .inl (by rw [taskRefs_eq, places, ← taskRefs_eq])
  | created fresh _ _ created =>
    refine .inr (.inl ?_)
    rw [created, ← fresh]
    simp [taskRefs]
  | leaked _ _ leaked => exact .inl (by rw [leaked]; rfl)
  | gone _ places _ =>
    refine .inr (.inr ?_)
    rw [taskRefs_eq, taskRefs_eq before, places]
    exact filter_sublist.map _

section Addresses

variable (sound : Sound before) (move : Move env config rules before after)

include sound move

theorem Move.distinct : after.2.taskRefs.Nodup := by
  rcases move.taskEffect.refs with same | grown | shrunk
  · rw [same]
    exact sound.distinct
  · rw [grown, nodup_append]
    refine ⟨sound.distinct, nodup_singleton _, ?_⟩
    intro t member fresh equal
    rw [mem_singleton.mp equal]
    exact Nat.ne_of_lt (sound.allocated t member)
  · exact sound.distinct.sublist shrunk

theorem Move.allocated : ∀ t ∈ after.2.taskRefs, t < after.2.nextRef := by
  intro t member
  have later := move.nextRef_le
  have earlier : t ∈ before.2.taskRefs → t < after.2.nextRef := fun old =>
    Nat.lt_of_lt_of_le (sound.allocated t old) later
  cases effect : move.taskEffect with
  | created fresh _ _ created =>
    rw [created] at member ⊢
    simp only [create, taskRefs, map_append, mem_append, map_cons, map_nil, mem_singleton] at member
    rcases member with old | rfl
    · exact lt_succ_of_lt (sound.allocated t old)
    · rw [fresh]
      exact lt_succ_self _
  | kept places _ =>
    refine earlier ?_
    rwa [taskRefs_eq, ← places, ← taskRefs_eq]
  | leaked _ _ leaked =>
    rw [leaked] at member
    exact earlier member
  | gone _ places _ =>
    refine earlier ?_
    rw [taskRefs_eq, places] at member
    rw [taskRefs_eq]
    exact (filter_sublist.map _).subset member

theorem Move.retries_nodup : (after.2.retries.map (·.ref)).Nodup := by
  have filtered : ∀ p : TaskRetry → Bool, ((before.2.retries.filter p).map (·.ref)).Nodup := fun p =>
    sound.retriesDistinct.sublist (filter_sublist.map _)
  cases move with
  | quiet quiet => rw [quiet.retries]; exact sound.retriesDistinct
  | destroyed => rw [destroy_eq]; exact filtered _
  | @finished t o life =>
    rw [release_eq]
    rcases retryClean_cases t o life with ⟨cleaned, -⟩ | ⟨retry, -, cleaned⟩
    · rw [cleaned]
      exact sound.retriesDistinct
    · rw [cleaned]
      exact filtered _
  | unschedulable | abandoned => rw [release_eq]; exact filtered _
  | doomed | limitReached => exact filtered _
  | retriedAgain =>
    rw [dismiss, setTask, retryAgain_refs]
    exact sound.retriesDistinct
  | retriedFirst =>
    simp only [dismiss, setTask, retryFirst, map_append, map_cons, map_nil]
    rw [nodup_append]
    refine ⟨sound.retriesDistinct, nodup_singleton _, ?_⟩
    intro r member fresh equal
    obtain ⟨retry, listed, rfl⟩ := mem_map.mp member
    rw [mem_singleton.mp equal]
    exact Nat.ne_of_lt (sound.retriesAllocated retry listed)
  | _ => exact sound.retriesDistinct

theorem Move.retries_allocated : ∀ retry ∈ after.2.retries, retry.ref < after.2.nextRef := by
  intro retry member
  have later := move.nextRef_le
  have earlier : ∀ old ∈ before.2.retries, old.ref = retry.ref → retry.ref < after.2.nextRef :=
    fun old listed same => same ▸ Nat.lt_of_lt_of_le (sound.retriesAllocated old listed) later
  cases move with
  | quiet quiet => exact earlier retry (quiet.retries ▸ member) rfl
  | destroyed =>
    rw [destroy_eq] at member
    exact earlier retry (mem_of_mem_filter member) rfl
  | @finished t o life =>
    rw [release_eq] at member
    exact earlier retry (mem_of_mem_retryClean member) rfl
  | unschedulable | abandoned =>
    rw [release_eq] at member
    exact earlier retry (mem_of_mem_filter member) rfl
  | doomed | limitReached => exact earlier retry (mem_of_mem_filter member) rfl
  | retriedAgain =>
    obtain ⟨old, listed, changed⟩ := mem_replace.mp member
    refine earlier old listed ?_
    rw [← changed]
    split <;> rfl
  | retriedFirst =>
    rcases mem_append.mp member with old | new
    · exact lt_succ_of_lt (sound.retriesAllocated retry old)
    · rw [mem_singleton.mp new]
      exact lt_succ_self _
  | _ => exact earlier retry member rfl

end Addresses

inductive RequestEffect (before after : Life) : Prop where
  | shrunk : after.requests.Subperm before.requests → RequestEffect before after
  | grown {kept : List SchedRequest} {request : SchedRequest} :
      kept.Sublist before.requests → after.requests = kept ++ [request] →
      request.ref = before.nextRef → after.nextRef = before.nextRef + 1 → RequestEffect before after

theorem Move.requestEffect (move : Move env config rules before after) : RequestEffect before.2 after.2 := by
  cases move with
  | quiet quiet => exact .shrunk quiet.requests.subperm
  | destroyed =>
    rw [destroy_eq]
    exact .shrunk (foldl_eraseP_sublist _ _).subperm
  | finished =>
    refine .shrunk ?_
    rw [release_eq]
    exact retryClean_requests_sublist.subperm
  | unschedulable | abandoned =>
    refine .shrunk ?_
    rw [release_eq]
    exact eraseP_sublist.subperm
  | doomed | limitReached | rescheduleRefused => exact .shrunk eraseP_sublist.subperm
  | spent => exact .shrunk filter_sublist.subperm
  | scheduled fresh _ | postponed fresh _ => exact .grown (List.Sublist.refl _) rfl fresh rfl
  | rescheduled _ _ fresh _ => exact .grown eraseP_sublist rfl fresh rfl
  | _ => exact .shrunk (List.Subperm.refl _)

section Requests

variable (sound : Sound before) (move : Move env config rules before after)

include sound move

theorem Move.requests_nodup : (after.2.requests.map (·.ref)).Nodup := by
  cases move.requestEffect with
  | shrunk fewer =>
    obtain ⟨listed, perm, sublist⟩ := fewer
    exact (perm.map _).nodup_iff.mp (sound.requestsDistinct.sublist (sublist.map _))
  | grown sublist grown fresh _ =>
    rw [grown, map_append, nodup_append]
    refine ⟨sound.requestsDistinct.sublist (sublist.map _), nodup_singleton _, ?_⟩
    intro req member other equal
    obtain ⟨request, listed, rfl⟩ := mem_map.mp member
    simp only [map_cons, map_nil, mem_singleton] at equal
    rw [equal, fresh]
    exact Nat.ne_of_lt (sound.requestsAllocated request (sublist.subset listed))

theorem Move.requests_allocated : ∀ request ∈ after.2.requests, request.ref < after.2.nextRef := by
  intro request member
  cases move.requestEffect with
  | shrunk fewer =>
    exact Nat.lt_of_lt_of_le (sound.requestsAllocated request (fewer.subset member)) move.nextRef_le
  | grown sublist grown fresh bigger =>
    rw [bigger]
    rw [grown] at member
    rcases mem_append.mp member with old | new
    · exact lt_succ_of_lt (sound.requestsAllocated request (sublist.subset old))
    · rw [mem_singleton.mp new, fresh]
      exact lt_succ_self _

end Requests

section Slots

variable (sound : Sound before) (move : Move env config rules before after)

include sound

include move

theorem Move.slots : ∀ task ∈ after.2.tasks, after.2.tasksMap task.id = some task.ref := by
  have place : ∀ life : Life, (∀ pair ∈ life.tasks.map Task.place, life.tasksMap pair.2 = some pair.1) ↔
      ∀ task ∈ life.tasks, life.tasksMap task.id = some task.ref := by
    intro life
    simp [Task.place]
  have earlier := (place before.2).mpr sound.slots
  rw [← place]
  intro pair member
  cases move.taskEffect with
  | kept places slots =>
    rw [slots]
    exact earlier pair (places ▸ member)
  | created fresh _ free created =>
    rw [created] at member ⊢
    simp only [create, map_append, mem_append, map_cons, map_nil, mem_singleton] at member ⊢
    rcases member with old | rfl
    · have taken := earlier pair old
      split
      · next equal =>
        rw [equal, free] at taken
        cases taken
      · exact taken
    · simp [Task.place]
  | leaked _ free leaked =>
    rw [leaked] at member ⊢
    have taken := earlier pair member
    simp only [leakSlot, act] at member ⊢
    split
    · next equal =>
      rw [equal, free] at taken
      cases taken
    · exact taken
  | @gone task live places slots =>
    rw [places] at member
    obtain ⟨listed, other⟩ := mem_filter.mp member
    have taken := earlier pair listed
    have removed := earlier _ live
    rw [slots]
    beta_reduce
    split
    · next equal =>
      rw [equal] at taken
      simp only [Task.place] at removed
      rw [removed] at taken
      simp [Option.some.inj taken] at other
    · exact taken

theorem Move.owners (id : Nat) (t : TaskRef) (taken : after.2.tasksMap id = some t) : id < tasksMapSize ∧
      ((∃ task ∈ after.2.tasks, task.ref = t ∧ task.id = id) ∨ .taskCreateFailed t ∈ after.2.history) := by
  have place : ∀ life : Life, (t, id) ∈ life.tasks.map Task.place ↔
      ∃ task ∈ life.tasks, task.ref = t ∧ task.id = id := by
    intro life
    simp [Task.place]
  have recorded : .taskCreateFailed t ∈ before.2.history → .taskCreateFailed t ∈ after.2.history :=
    fun old => move.history_suffix.subset old
  rw [← place]
  cases move.taskEffect with
  | kept places slots =>
    rw [slots] at taken
    obtain ⟨bounded, owner⟩ := sound.owners id t taken
    rw [places, place]
    exact ⟨bounded, owner.imp_right recorded⟩
  | @created task fresh bounded free created =>
    rw [created] at taken ⊢
    simp only [create, map_append, mem_append, map_cons, map_nil, mem_singleton] at taken ⊢
    split at taken
    · next equal =>
      cases taken
      exact ⟨equal ▸ bounded, .inl (.inr (by rw [equal]; rfl))⟩
    · obtain ⟨small, owner⟩ := sound.owners id t taken
      refine ⟨small, ?_⟩
      rw [place]
      exact owner.imp_left .inl
  | leaked bounded free leaked =>
    rw [leaked] at taken ⊢
    simp only [leakSlot, act] at taken ⊢
    split at taken
    · next equal =>
      cases taken
      exact ⟨equal ▸ bounded, .inr (mem_cons_self ..)⟩
    · obtain ⟨small, owner⟩ := sound.owners id t taken
      rw [place]
      exact ⟨small, owner.imp_right (mem_cons_of_mem _)⟩
  | @gone task live places slots =>
    rw [slots] at taken
    beta_reduce at taken
    split at taken
    · cases taken
    · next different =>
      obtain ⟨small, owner⟩ := sound.owners id t taken
      refine ⟨small, owner.imp ?_ recorded⟩
      intro listed
      rw [places, mem_filter]
      refine ⟨(place _).mpr listed, ?_⟩
      simp only [decide_eq_true_eq]
      rintro rfl
      obtain ⟨other, member, same, slot⟩ := listed
      obtain ⟨removed, removedMember, removedPlace⟩ := mem_map.mp live
      have refs : removed.ref = other.ref := (congrArg Prod.fst removedPlace).trans same.symm
      have equal : removed = other := inj_on_of_nodup_map sound.distinct removedMember member refs
      rw [equal] at removedPlace
      exact different (slot.symm.trans (congrArg Prod.snd removedPlace))

end Slots

private theorem tasks_whenSynchronous (o : OutId) : (whenSynchronous config o).filterMap Frame.task? = [] := by
  unfold whenSynchronous
  split <;> rfl

private theorem tasks_whenIdle (life : Life) (o : OutId) : (whenIdle life o).filterMap Frame.task? = [] := by
  unfold whenIdle
  split <;> rfl

private theorem tasks_afterFailure (queued : Bool) (o : OutId) (retry : Option RetryRef) :
    (afterFailure queued t o retry).filterMap Frame.task? = [t] := by
  cases queued <;> rfl

variable {t : TaskRef} {claim : TaskRef → Nat}

theorem Stage.mem_mentioned {stage : Stage} : t ∈ stage.mentioned ↔
      (∃ flush ∈ stage.2.flushes, flush.task = t) ∨ (∃ entry ∈ stage.2.pending, entry.task = t) ∨
        (∃ retry ∈ stage.2.retries, retry.parent = t) ∨ ∃ frame ∈ stage.1, frame.task? = some t := by
  simp [mentioned]

/-- Only a new task that starts to run is mentioned anew. -/
theorem Move.mentioned (sound : Sound before) (move : Move env config rules before after) (t : TaskRef)
    (member : t ∈ after.mentioned) : t ∈ before.mentioned ∨ ∃ task, before.2.task? t = some task ∧ task.status = .new ∧
      after.2 = before.2.setStatus t .running := by
  cases move with
  | quiet quiet =>
    refine .inl ?_
    simpa [Stage.mentioned, quiet.flushes, quiet.pending, quiet.retries] using member
  | destroyed =>
    refine .inl ?_
    rw [destroy_eq] at member
    simp only [Stage.mentioned, filterMap_nil, append_nil, mem_append, mem_map, mem_filter] at member ⊢
    grind
  | @finished t' o life =>
    refine .inl ?_
    have fewer : ∀ retry ∈ (life.retryClean t' o).retries, retry ∈ life.retries := fun _ =>
      mem_of_mem_retryClean
    rw [retryClean_eq, release_eq] at member
    simp [Stage.mentioned, Frame.task?] at member ⊢
    grind
  | unschedulable | abandoned =>
    refine .inl ?_
    rw [release_eq] at member
    simp [Stage.mentioned, Frame.task?] at member ⊢
    grind
  | @run task life found isNew =>
    rcases Stage.mem_mentioned.mp member with flush | entry | retry | ⟨frame, listed, names⟩
    · exact .inl (Stage.mem_mentioned.mpr (.inl flush))
    · exact .inl (Stage.mem_mentioned.mpr (.inr (.inl entry)))
    · exact .inl (Stage.mem_mentioned.mpr (.inr (.inr (.inl retry))))
    · have named : frame.task? = some task.ref := by
        rcases mem_append.mp listed with visited | starting
        · obtain ⟨route, -, rfl⟩ := mem_map.mp visited
          rfl
        · rw [mem_singleton.mp starting]
          rfl
      cases names.symm.trans named
      exact .inr ⟨task, found, isNew, rfl⟩
  | @result f flush t' life found slot =>
    refine .inl ?_
    obtain ⟨task, taskFound, mapped⟩ := Option.bind_eq_some_iff.mp slot
    obtain ⟨live, same⟩ := task?_some taskFound
    have owner := sound.slots task live
    simp only [Stage.mentioned, filterMap_append, tasks_whenSynchronous] at member ⊢
    simp [Frame.task?] at member ⊢
    grind [mem_of_mem_eraseP]
  | @retriedAgain t' o retry life =>
    refine .inl ?_
    have parents := retryAgain_parents retry.ref life
    simp only [Stage.mentioned, dismiss, setTask, parents] at member ⊢
    exact member
  | @phase flush phase status life =>
    refine .inl ?_
    have tasks := setPhase_tasks flush.ref phase life
    simp only [Stage.mentioned, setRoute, setTask, tasks] at member ⊢
    exact member
  | _ =>
    refine .inl ?_
    simp only [Stage.mentioned, filterMap_append, filterMap_cons, tasks_whenSynchronous,
      tasks_whenIdle, tasks_afterFailure] at member ⊢
    simp [Frame.task?] at member ⊢
    grind [mem_of_mem_eraseP]

private theorem users_replace {claim' : TaskRef → Nat} (balanced : ∀ task ∈ tasks, task.users = claim task.ref)
    (keeps : ∀ task, (change task).ref = task.ref)
    (moved : ∀ task : Task, task.users = (claim t : Int) → (change task).users = (claim' t : Int))
    (others : ∀ other, other ≠ t → claim' other = claim other) :
    ∀ task ∈ Tally.replace Task.ref t change tasks, task.users = claim' task.ref := by
  intro task member
  obtain ⟨old, listed, changed⟩ := mem_replace.mp member
  have before := balanced old listed
  subst changed
  split
  · next same =>
    rw [keeps, same]
    exact moved old (same ▸ before)
  · next different =>
    rw [others old.ref different]
    exact before

private theorem users_discard (balanced : ∀ task ∈ tasks, task.users = claim task.ref) :
    ∀ task ∈ discard Task.ref t tasks, task.users = claim task.ref :=
  fun task member => balanced task (mem_discard.mp member).1

section Held

variable (t t' : TaskRef) (o : OutId)

@[simp] theorem held_whenSynchronous : (whenSynchronous config o).countP (Frame.holds t) = 0 :=
  countP_whenSynchronous rfl

@[simp] theorem held_whenIdle (life : Life) : (whenIdle life o).countP (Frame.holds t) = 0 := countP_whenIdle rfl

@[simp] theorem held_afterFailure (queued : Bool) (retry : Option RetryRef) :
    (afterFailure queued t' o retry).countP (Frame.holds t) = 0 :=
  countP_afterFailure rfl

@[simp] theorem held_routeFrames (routes : List TaskRoute) :
    (routes.map fun route => Frame.route t' route.out).countP (Frame.holds t) = 0 :=
  countP_routeFrames routes fun _ => rfl

end Held

theorem countP_flush_task (life : Life) :
    (life.flushes.map (·.task)).countP (· = t) = life.flushes.countP (·.task = t) := by
  rw [countP_map]
  rfl

theorem Sound.claimed_fresh (sound : Sound before) (noFrames : before.1 = []) :
    before.claimed before.2.nextRef = 0 := by
  have unmentioned : before.2.nextRef ∉ before.mentioned := fun member =>
    Nat.lt_irrefl _ (sound.allocated _ (sound.live _ member))
  simp only [Stage.mem_mentioned, not_or, not_exists, not_and] at unmentioned
  obtain ⟨noFlush, noEntry, -, -⟩ := unmentioned
  have flushes : before.2.flushes.countP (·.task = before.2.nextRef) = 0 := by
    rw [countP_eq_zero]
    exact fun flush member => by simpa using noFlush flush member
  have pending : before.2.pending.countP (·.task = before.2.nextRef) = 0 := by
    rw [countP_eq_zero]
    exact fun entry member => by simpa using noEntry entry member
  have history : before.2.history.countP (Action.refuses before.2.nextRef) = 0 := by
    rw [countP_eq_zero]
    intro action member refuses
    have touches : action.touches before.2.nextRef = true := by
      cases action <;> simp_all [Action.refuses, Action.touches]
    exact Nat.lt_irrefl _ (sound.touched _ (any_eq_true.mpr ⟨action, member, touches⟩))
  simp [Stage.claimed, flushes, pending, history, noFrames]

private theorem users_release {frames : List Frame} {life : Life}
    (balanced : ∀ task ∈ life.tasks, task.users = Stage.claimed (frames, life) task.ref) :
    ∀ task ∈ (life.release t).tasks, task.users = Stage.claimed (frames, life.release t) task.ref := by
  rcases release_cases t life with ⟨same, -⟩ | ⟨released, -, -, -, same⟩
  · rw [same]
    exact balanced
  · rw [same]
    intro task member
    have earlier := balanced task (mem_discard.mp member).1
    simpa [Stage.claimed, Action.refuses] using earlier

section Middle

variable {life : Life} {t : TaskRef} {o : OutId} {r : RetryRef} {req : Nat}

/-! The claims between the last change of a task and the check that may release it. -/

theorem Sound.balanced_closing (sound : Sound ([.closing t o], life)) :
    ∀ task ∈ ((life.retryClean t o).dismiss t).tasks,
      task.users = Stage.claimed ([], (life.retryClean t o).dismiss t) task.ref := by
  rw [retryClean_eq]
  refine users_replace sound.users (fun _ => rfl) (fun task same => ?_) (fun other different => ?_)
  · simp only [same, Stage.claimed]
    simp [Frame.holds]
  · simp [Stage.claimed, Frame.holds, Ne.symm different]

theorem Sound.balanced_unscheduled (sound : Sound ([.unscheduled t o r], life)) :
    ∀ task ∈ (life.retryDestroy r).tasks, task.users = Stage.claimed ([], life.retryDestroy r) task.ref := by
  intro task member
  simpa [Stage.claimed, Frame.holds] using sound.users task member

theorem Sound.balanced_abandoned (sound : Sound ([.attempt t o (some r) false, .spent req r], life)) :
    ∀ task ∈ (life.retryDestroy r).tasks,
      task.users = Stage.claimed ([.spent req r], life.retryDestroy r) task.ref := by
  intro task member
  simpa [Stage.claimed, Frame.holds] using sound.users task member

end Middle

variable {t : TaskRef} {task : Task}

theorem Stage.unmentioned_of_unclaimed {stage : Stage} (none : stage.claimed t = 0)
    (noRetries : ∀ retry ∈ stage.2.retries, retry.parent ≠ t) (noFrames : t ∉ stage.1.filterMap Frame.task?) :
    t ∉ stage.mentioned := by
  intro member
  simp only [claimed] at none
  rcases mem_mentioned.mp member with ⟨flush, flying, names⟩ | ⟨entry, waiting, names⟩ |
    ⟨retry, kept, names⟩ | ⟨frame, framed, names⟩
  · have some : 0 < stage.2.flushes.countP (·.task = t) := countP_pos_iff.mpr ⟨flush, flying, by simpa using names⟩
    omega
  · have some : 0 < stage.2.pending.countP (·.task = t) := countP_pos_iff.mpr ⟨entry, waiting, by simpa using names⟩
    omega
  · exact noRetries retry kept names
  · exact noFrames (mem_filterMap.mpr ⟨frame, framed, names⟩)

private theorem unmentioned_release {frames : List Frame} {life : Life} {other : TaskRef}
    (balanced : ∀ task ∈ life.tasks, task.users = Stage.claimed (frames, life) task.ref)
    (noFrames : t ∉ frames.filterMap Frame.task?) (old : other ∈ life.taskRefs)
    (gone : other ∉ (life.release t).taskRefs) : other ∉ Stage.mentioned (frames, life.release t) := by
  rcases release_cases t life with ⟨kept, -⟩ | ⟨task, found, unused, noRetries, released⟩
  · rw [kept] at gone
    exact absurd old gone
  · obtain ⟨listed, rfl⟩ := task?_some found
    obtain ⟨otherTask, otherListed, rfl⟩ := mem_taskRefs.mp old
    have same : otherTask.ref = task.ref := by
      by_contra different
      rw [released] at gone
      exact gone (mem_taskRefs.mpr ⟨otherTask, mem_discard.mpr ⟨otherListed, different⟩, rfl⟩)
    have none := balanced task listed
    rw [same, released]
    refine Stage.unmentioned_of_unclaimed ?_ ?_ noFrames
    · simp only [Stage.claimed] at none ⊢
      simp only [countP_cons, Action.refuses, Bool.false_eq_true, if_false]
      omega
    · simpa [Life.noRetries] using noRetries

section

variable (sound : Sound before)
include sound

theorem Sound.result_task {flush : OutputFlush}
    (slot : ((before.2.task? flush.task).bind fun task => before.2.tasksMap task.id) = some t) : t = flush.task := by
  obtain ⟨task, taskFound, mapped⟩ := Option.bind_eq_some_iff.mp slot
  obtain ⟨live, same⟩ := task?_some taskFound
  exact Option.some.inj ((mapped.symm.trans (sound.slots task live)).trans (congrArg some same))

theorem Move.users (move : Move env config rules before after) :
    ∀ task ∈ after.2.tasks, task.users = after.claimed task.ref := by
  have balanced := sound.users
  cases move with
  | quiet quiet =>
    rw [quiet.tasks]
    intro task member
    rw [balanced task member]
    simp [Stage.claimed, quiet.flushes, quiet.pending, quiet.history]
  | @created task life fresh _ unused =>
    intro other member
    rcases mem_append.mp member with old | new
    · simpa [Stage.claimed] using balanced other old
    · rw [mem_singleton.mp new, unused, fresh]
      have none := sound.claimed_fresh rfl
      simp only [Stage.claimed, create] at none ⊢
      omega
  | destroyed =>
    rw [destroy_eq]
    exact users_discard balanced
  | routeDropped | erased => exact users_replace balanced (fun _ => rfl) (fun _ same => same) (fun _ _ => rfl)
  | @phase flush phase status life =>
    have claims : ∀ t, Stage.claimed ([], life.setPhase flush.ref phase) t = Stage.claimed ([], life) t := by
      intro t
      simp only [Stage.claimed, ← countP_flush_task, setPhase_tasks]
      rfl
    refine users_replace balanced (fun _ => rfl) (fun task same => ?_) (fun other _ => claims other)
    rw [same]
    exact congrArg Nat.cast (claims _).symm
  | run | routeErased =>
    refine users_replace balanced (fun _ => rfl) (fun task same => ?_) (fun other _ => ?_)
    · simpa [Stage.claimed, Frame.holds, -countP_map] using same
    · simp [Stage.claimed, Frame.holds, -countP_map]
  | flushed | enqueued | enqueueRefused =>
    refine users_replace balanced (fun _ => rfl) (fun task same => ?_) (fun other different => ?_)
    · simp only [same, Stage.claimed]
      simp [Frame.holds, Action.refuses]
      omega
    · simp only [Stage.claimed]
      simp [Frame.holds, Action.refuses, Ne.symm different]
  | @popped o entry frames life found =>
    refine users_replace balanced (fun _ => rfl) (fun task same => ?_) (fun other different => ?_)
    · have moved := countP_eraseP (q := fun entry' => decide (entry'.task = entry.task)) found
      simp only [same, Stage.claimed, moved]
      simp [Frame.holds]
      omega
    · have moved := countP_eraseP (q := fun entry => decide (entry.task = other)) found
      simp only [Stage.claimed, moved]
      simp [Frame.holds, Ne.symm different]
  | @result f flush t life found slot =>
    intro task member
    have same := sound.result_task slot
    have moved := countP_eraseP (q := fun flush => decide (flush.task = task.ref)) found
    rw [balanced task member]
    simp only [Stage.claimed, moved, same]
    by_cases own : flush.task = task.ref
    · simp [Frame.holds, own]
      omega
    · simp [Frame.holds, own]
  | finished => exact users_release sound.balanced_closing
  | retriedAgain | retriedFirst =>
    refine users_replace balanced (fun _ => rfl) (fun task same => ?_) (fun other different => ?_)
    · simp only [same, Stage.claimed]
      simp [Frame.holds]
    · simp [Stage.claimed, Frame.holds, Ne.symm different]
  | unschedulable => exact users_release sound.balanced_unscheduled
  | abandoned => exact users_release sound.balanced_abandoned
  | _ =>
    intro task member
    simpa [Stage.claimed, Frame.holds, Action.refuses, countP_afterFailure] using balanced task member

theorem Move.unmentioned_of_gone (move : Move env config rules before after) (old : t ∈ before.2.taskRefs)
    (gone : t ∉ after.2.taskRefs) : t ∉ after.mentioned := by
  have changed : ∀ {t' : TaskRef} {change : Task → Task}, (∀ task, (change task).ref = task.ref) →
      t ∈ (Tally.replace Task.ref t' change before.2.tasks).map (·.ref) := by
    intro t' change keeps
    rwa [map_replace_of_fixed keeps]
  cases move with
  | quiet quiet =>
    refine absurd ?_ gone
    simpa [taskRefs, quiet.tasks] using old
  | created =>
    refine absurd ?_ gone
    simp only [create, taskRefs, map_append, mem_append]
    exact .inl old
  | @destroyed task life found unused =>
    obtain ⟨listed, -⟩ := task?_some found
    obtain ⟨other, otherListed, rfl⟩ := mem_taskRefs.mp old
    rw [destroy_eq] at gone ⊢
    have same : other.ref = task.ref := by
      by_contra different
      exact gone (mem_taskRefs.mpr ⟨other, mem_discard.mpr ⟨otherListed, different⟩, rfl⟩)
    have none := sound.users task listed
    rw [same]
    refine Stage.unmentioned_of_unclaimed ?_ ?_ (by simp)
    · simp only [Stage.claimed] at none ⊢
      omega
    · intro retry kept names
      obtain ⟨was, other⟩ := mem_filter.mp kept
      simp only [decide_eq_true_eq] at other
      exact other (mem_map.mpr ⟨retry, mem_filter.mpr ⟨was, by simpa using names⟩, rfl⟩)
  | @finished t' o life =>
    refine unmentioned_release sound.balanced_closing (by simp) ?_ gone
    rw [retryClean_eq]
    exact changed fun _ => rfl
  | unschedulable => exact unmentioned_release sound.balanced_unscheduled (by simp) old gone
  | abandoned => exact unmentioned_release sound.balanced_abandoned (by simp [Frame.task?]) old gone
  | routeDropped | phase | erased | run | routeErased | flushed | enqueued | enqueueRefused | popped
  | retriedAgain | retriedFirst =>
    refine absurd ?_ gone
    exact changed fun _ => rfl
  | _ => exact absurd old gone

theorem Move.live (move : Move env config rules before after) : ∀ t ∈ after.mentioned, t ∈ after.2.taskRefs := by
  intro t member
  have old : t ∈ before.2.taskRefs := by
    rcases move.mentioned sound t member with mentioned | ⟨task, found, -, -⟩
    · exact sound.live t mentioned
    · obtain ⟨listed, same⟩ := task?_some found
      exact mem_taskRefs.mpr ⟨task, listed, same⟩
  by_contra gone
  exact move.unmentioned_of_gone sound old gone member

end

theorem Move.touches (move : Move env config rules before after) (t : TaskRef)
    (touched : after.2.history.any (Action.touches t) = true) :
    before.2.history.any (Action.touches t) = true ∨ t ∈ before.mentioned := by
  have framed : ∀ {frame frames life}, before = (frame :: frames, life) → frame.task? = some t →
      t ∈ before.mentioned := by
    rintro frame frames life rfl names
    exact Stage.mem_mentioned.mpr (.inr (.inr (.inr ⟨frame, mem_cons_self .., names⟩)))
  have released : ∀ {life : Life} {t' : TaskRef}, (life.release t').history.any (Action.touches t) = true →
      life.history.any (Action.touches t) = true := by
    intro life t' touched
    rcases release_cases t' life with ⟨same, -⟩ | ⟨task, -, -, -, same⟩
    · rwa [same] at touched
    · rw [same] at touched
      simpa [Action.touches] using touched
  cases move with
  | quiet quiet => exact .inl (by rwa [quiet.history] at touched)
  | destroyed => exact .inl (by rwa [destroy_eq] at touched)
  | finished =>
    have earlier := released touched
    rw [retryClean_eq] at earlier
    exact .inl earlier
  | unschedulable | abandoned =>
    have earlier := released touched
    exact .inl earlier
  | leaked | dropCounted | dropped | limitReached => exact .inl (by simpa [Action.touches] using touched)
  | flushed | poolRefused | createRefused | pipeRefused | enqueued | enqueueRefused =>
    simp only [start, enqueue, act, acquire, setTask, any_cons, Action.touches,
      Bool.or_eq_true, decide_eq_true_eq] at touched
    rcases touched with rfl | earlier
    · exact .inr (framed rfl rfl)
    · exact .inl earlier
  | _ => exact .inl touched

theorem Move.touched (sound : Sound before) (move : Move env config rules before after) (t : TaskRef)
    (touched : after.2.history.any (Action.touches t) = true) : t < after.2.nextRef := by
  refine Nat.lt_of_lt_of_le ?_ move.nextRef_le
  rcases move.touches t touched with earlier | mentioned
  · exact sound.touched t earlier
  · exact sound.allocated t (sound.live t mentioned)

private theorem new_replace (member : task ∈ Tally.replace Task.ref t change tasks) (isNew : task.status = .new)
    (keeps : ∀ task, (change task).ref = task.ref)
    (older : ∀ task : Task, (change task).status = .new → task.status = .new) :
    ∃ old ∈ tasks, old.ref = task.ref ∧ old.status = .new := by
  obtain ⟨old, listed, changed⟩ := mem_replace.mp member
  refine ⟨old, listed, ?_⟩
  subst changed
  split at isNew
  · next same =>
    rw [if_pos same, keeps]
    exact ⟨rfl, older old isNew⟩
  · next different =>
    rw [if_neg different]
    exact ⟨rfl, isNew⟩

theorem Move.new_tasks (move : Move env config rules before after) (member : task ∈ after.2.tasks)
    (isNew : task.status = .new) :
    (∃ old ∈ before.2.tasks, old.ref = task.ref ∧ old.status = .new) ∨ task.ref = before.2.nextRef := by
  have released : ∀ {life : Life} {t : TaskRef}, task ∈ (life.release t).tasks → task ∈ life.tasks := by
    intro life t member
    rcases release_cases t life with ⟨same, -⟩ | ⟨other, -, -, -, same⟩
    · rwa [same] at member
    · rw [same] at member
      exact (mem_discard.mp member).1
  cases move with
  | quiet quiet => exact .inl ⟨task, quiet.tasks ▸ member, rfl, isNew⟩
  | created fresh =>
    rcases mem_append.mp member with old | new
    · exact .inl ⟨task, old, rfl, isNew⟩
    · exact .inr (mem_singleton.mp new ▸ fresh)
  | destroyed =>
    rw [destroy_eq] at member
    exact .inl ⟨task, (mem_discard.mp member).1, rfl, isNew⟩
  | finished =>
    have earlier := released member
    rw [retryClean_eq] at earlier
    exact .inl (new_replace earlier isNew (fun _ => rfl) (fun _ same => same))
  | unschedulable | abandoned =>
    have earlier := released member
    exact .inl ⟨task, earlier, rfl, isNew⟩
  | run =>
    refine .inl (new_replace member isNew (fun _ => rfl) (fun _ impossible => ?_))
    simp at impossible
  | routeDropped | phase | erased | routeErased | flushed | enqueued | enqueueRefused | popped
  | retriedAgain | retriedFirst => exact .inl (new_replace member isNew (fun _ => rfl) (fun _ same => same))
  | _ => exact .inl ⟨task, member, rfl, isNew⟩

theorem Move.untouched (sound : Sound before) (move : Move env config rules before after) :
    ∀ task ∈ after.2.tasks, task.status = .new →
      task.ref ∉ after.mentioned ∧ after.2.history.any (Action.touches task.ref) = false := by
  intro task member isNew
  have earlier : task.ref ∉ before.mentioned ∧ before.2.history.any (Action.touches task.ref) = false := by
    rcases move.new_tasks member isNew with ⟨old, listed, same, oldNew⟩ | fresh
    · rw [← same]
      exact sound.untouched old listed oldNew
    · rw [fresh]
      refine ⟨fun mentioned => Nat.lt_irrefl _ (sound.allocated _ (sound.live _ mentioned)), ?_⟩
      rw [Bool.eq_false_iff]
      exact fun touched => Nat.lt_irrefl _ (sound.touched _ touched)
  refine ⟨?_, ?_⟩
  · intro mentioned
    rcases move.mentioned sound task.ref mentioned with old | ⟨other, -, -, running⟩
    · exact earlier.1 old
    · rw [running] at member
      obtain ⟨old, -, changed⟩ := mem_setTask.mp member
      split at changed
      · rw [← changed] at isNew
        simp at isNew
      · next different => exact different (by rw [changed])
  · rw [Bool.eq_false_iff]
    intro touched
    rcases move.touches task.ref touched with old | mentioned
    · rw [earlier.2] at old
      cases old
    · exact earlier.1 mentioned

private theorem any_eraseP_other {entries : List TaskEnqueued} {o other : OutId} (different : other ≠ o)
    (some : entries.any (·.out = other) = true) : (entries.eraseP (·.out = o)).any (·.out = other) = true := by
  obtain ⟨entry, member, same⟩ := any_eq_true.mp some
  simp only [decide_eq_true_eq] at same
  refine any_eq_true.mpr ⟨entry, ?_, by simpa using same⟩
  exact (mem_eraseP_of_neg (by simp [same, different])).mpr member

theorem Move.queues (sound : Sound before) (move : Move env config rules before after) :
    ∀ o, after.2.pending.any (·.out = o) = true →
      after.2.inProgress.any (·.out = o) = true ∨ after.1.any (Frame.advances o) = true := by
  intro o waiting
  have earlier := sound.queues o
  cases move with
  | quiet quiet =>
    rw [quiet.pending] at waiting
    rw [quiet.inProgress]
    exact earlier waiting
  | destroyed =>
    rw [destroy_eq] at waiting ⊢
    exact earlier waiting
  | finished =>
    rw [retryClean_eq, release_eq] at waiting ⊢
    simpa [Frame.advances] using earlier waiting
  | unschedulable | abandoned =>
    rw [release_eq] at waiting ⊢
    simpa [Frame.advances] using earlier waiting
  | @enqueued t o' retry frames life =>
    by_cases same : o' = o
    · subst same
      unfold whenIdle
      cases found : life.inProgress.find? (·.out = o') with
      | none => simp [Frame.advances]
      | some entry =>
        have names := List.find?_some found
        exact .inl (any_eq_true.mpr ⟨entry, mem_of_find?_eq_some found, names⟩)
    · have older : life.pending.any (·.out = o) = true := by simpa [same] using waiting
      rcases earlier older with busy | advancing
      · exact .inl busy
      · refine .inr ?_
        rw [any_append]
        simp only [any_cons, Frame.advances, Bool.false_or] at advancing
        rw [advancing, Bool.or_true]
  | @popped o' entry frames life found =>
    by_cases same : o' = o
    · have names := List.find?_some found
      rw [same] at names
      refine .inl (any_eq_true.mpr ⟨entry, ?_, names⟩)
      exact mem_append_right _ (mem_singleton_self _)
    · have older : life.pending.any (·.out = o) = true := by
        obtain ⟨waiter, member, names⟩ := any_eq_true.mp waiting
        exact any_eq_true.mpr ⟨waiter, mem_of_mem_eraseP member, names⟩
      rcases earlier older with busy | advancing
      · exact .inl (by simp only [pop, any_append, Bool.or_eq_true]; exact .inl busy)
      · refine .inr ?_
        simpa [Frame.advances, same] using advancing
  | @exhausted o' frames life missing =>
    rcases earlier waiting with busy | advancing
    · exact .inl busy
    · have different : o' ≠ o := by
        rintro rfl
        obtain ⟨waiter, member, names⟩ := any_eq_true.mp waiting
        exact List.find?_eq_none.mp missing waiter member names
      exact .inr (by simpa [Frame.advances, different] using advancing)
  | @retired o' frames life =>
    by_cases same : o' = o
    · exact .inr (by simp [Frame.advances, same])
    · rcases earlier waiting with busy | advancing
      · exact .inl (any_eraseP_other (Ne.symm same) busy)
      · exact .inr (by simpa [Frame.advances] using advancing)
  | result | poolRefused | createRefused | pipeRefused =>
    rcases earlier waiting with busy | advancing
    · exact .inl busy
    · refine .inr ?_
      simp only [any_cons, Frame.advances, Bool.false_or, any_nil] at advancing
      simp [advancing]
  | _ => simpa [Frame.advances] using earlier waiting

theorem Sound.step (sound : Sound before) (move : Move env config rules before after) : Sound after where
  distinct := move.distinct sound
  retriesDistinct := move.retries_nodup sound
  requestsDistinct := move.requests_nodup sound
  allocated := move.allocated sound
  retriesAllocated := move.retries_allocated sound
  requestsAllocated := move.requests_allocated sound
  slots := move.slots sound
  owners := move.owners sound
  live := move.live sound
  users := move.users sound
  touched := move.touched sound
  untouched := move.untouched sound
  queues := move.queues sound

/-- A run of moves keeps the life cycle sound. -/
theorem Sound.run (sound : Sound before) (moves : Moves env config rules before after) : Sound after := by
  induction moves with
  | refl => exact sound
  | tail _ move ih => exact ih.step move

end FluentBit
