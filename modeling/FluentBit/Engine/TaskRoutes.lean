import FluentBit.Engine.TaskRelease

/-! No route of a task is lost. `tasks_start` skips a busy output that cannot be
multiplexed, and the task is new again only if none of its routes was hit; and
it does not look at the result of starting a flush. So this takes flushes that
start, and outputs that cannot be multiplexed must have their tasks alone. -/

set_option autoImplicit false

namespace FluentBit

open List hiding beq_eq_decide
open Tally Runs Life

variable {env : Env} {config : Config} {rules : Rules} {before after : Stage} {t : TaskRef} {o : OutId}

def Stage.Begun (stage : Stage) (t : TaskRef) (o : OutId) : Prop :=
  (∃ flush ∈ stage.2.flushes, flush.task = t ∧ flush.out = o) ∨ .result t o ∈ stage.1 ∨
    (∃ retry ∈ stage.2.retries, retry.parent = t ∧ retry.out = o) ∨
    ∃ token ∈ stage.tokens, token.task = t ∧ token.out = o

theorem Move.flush_origin (move : Move env config rules before after) {flush : OutputFlush}
    (member : flush ∈ after.2.flushes) : (∃ old ∈ before.2.flushes, old.task = flush.task ∧ old.out = flush.out) ∨
      (∃ retry queued, .attempt flush.task flush.out retry queued ∈ before.1) ∧
        .flushStarted flush.out flush.task ∈ after.2.history := by
  cases move with
  | quiet quiet => exact .inl ⟨flush, quiet.flushes ▸ member, rfl, rfl⟩
  | destroyed =>
    rw [destroy_eq] at member
    exact .inl ⟨flush, member, rfl, rfl⟩
  | phase =>
    obtain ⟨old, listed, changed⟩ := mem_replace.mp member
    refine .inl ⟨old, listed, ?_⟩
    rw [← changed]
    split
    · exact ⟨rfl, rfl⟩
    · exact ⟨rfl, rfl⟩
  | flushed =>
    rcases mem_append.mp member with old | new
    · exact .inl ⟨flush, old, rfl, rfl⟩
    · rw [mem_singleton.mp new]
      exact .inr ⟨⟨_, _, mem_cons_self ..⟩, mem_cons_self ..⟩
  | result => exact .inl ⟨flush, mem_of_mem_eraseP member, rfl, rfl⟩
  | finished =>
    rw [release_eq, retryClean_eq] at member
    exact .inl ⟨flush, member, rfl, rfl⟩
  | unschedulable | abandoned =>
    rw [release_eq] at member
    exact .inl ⟨flush, member, rfl, rfl⟩
  | _ => exact .inl ⟨flush, member, rfl, rfl⟩

theorem Move.begun_origin (sound : Sound before) (move : Move env config rules before after)
    (begun : after.Begun t o) : before.Begun t o ∨ .flushStarted o t ∈ after.2.history := by
  have retried : ∀ retry ∈ after.2.retries, retry.parent = t → retry.out = o → before.Begun t o := by
    rintro retry listed rfl rfl
    rcases move.retry_origin listed with ⟨old, earlier, -, parent, out⟩ | ⟨-, top, -⟩
    · exact .inr (.inr (.inl ⟨old, earlier, parent, out⟩))
    · rw [Stage.Begun, top]
      exact .inr (.inl (mem_singleton_self _))
  rcases begun with ⟨flush, listed, rfl, rfl⟩ | result | ⟨retry, listed, parent, out⟩ | ⟨token, listed, task, out⟩
  · rcases move.flush_origin listed with ⟨old, earlier, task, out⟩ | ⟨-, started⟩
    · exact .inl (.inl ⟨old, earlier, task, out⟩)
    · exact .inr started
  · rcases move.frame_origin sound result with earlier | flush
    · exact .inl (.inr (.inl earlier))
    · exact .inl (.inl flush)
  · exact .inl (retried retry listed parent out)
  · rcases move.tokens listed with earlier | ⟨retry, live, rfl⟩
    · exact .inl (.inr (.inr (.inr ⟨token, earlier, task, out⟩)))
    · exact .inl (retried retry live task out)

theorem Move.frame_kept (move : Move env config rules before after) {frame : Frame} (member : frame ∈ before.1) :
    frame ∈ after.1 ∨ ∃ rest, before.1 = frame :: rest := by
  cases move with
  | quiet => exact .inl member
  | created | leaked | destroyed | routeDropped | dropCounted | phase | erased | run | result | fired
  | rescheduled | rescheduleRefused => cases member
  | _ =>
    rcases mem_cons.mp member with rfl | later
    · exact .inr ⟨_, rfl⟩
    · exact .inl (by simp [later])

def Stage.Serves (stage : Stage) (t : TaskRef) (o : OutId) : Prop :=
  .flushStarted o t ∈ stage.2.history ∨ (∃ entry ∈ stage.2.pending, entry.task = t ∧ entry.out = o) ∨
    .route t o ∈ stage.1 ∨ ∃ retry queued, .attempt t o retry queued ∈ stage.1

theorem Move.pending_kept (move : Move env config rules before after) {entry : TaskEnqueued}
    (member : entry ∈ before.2.pending) :
    entry ∈ after.2.pending ∨ .attempt entry.task entry.out entry.retry true ∈ after.1 := by
  cases move with
  | quiet quiet => exact .inl (quiet.pending ▸ member)
  | destroyed =>
    rw [destroy_eq]
    exact .inl member
  | enqueued => exact .inl (mem_append_left _ member)
  | @popped o first frames life found =>
    have names : first.out = o := by simpa using find?_some found
    rcases eq_or_mem_eraseP found member with rfl | later
    · rw [names]
      exact .inr (mem_cons_self ..)
    · exact .inl later
  | finished =>
    rw [release_eq, retryClean_eq]
    exact .inl member
  | unschedulable | abandoned =>
    rw [release_eq]
    exact .inl member
  | _ => exact .inl member

theorem Move.serves (starts : ∀ o, FlushStarts env config o) (allocates : ∀ o, ¬env.Refuses (.enqueueAlloc o))
    (begun : ∀ t o, before.Begun t o → .flushStarted o t ∈ before.2.history)
    (move : Move env config rules before after) (serves : before.Serves t o) :
    after.Serves t o ∨ (∃ frames, before.1 = .route t o :: frames ∧ after = (frames, before.2.eraseRoute t o)) ∨
      ∃ outs, .starting t outs ∈ before.1 ∧ config.isNoMultiplex o = true ∧ o ∈ outs ∧ 2 ≤ outs.length := by
  have started : .flushStarted o t ∈ before.2.history → after.Serves t o :=
    fun earlier => .inl (move.history_suffix.subset earlier)
  have retried : ∀ {queued : Bool} {r : RetryRef}, .attempt t o (some r) queued ∈ before.1 → after.Serves t o := by
    intro queued r member
    refine started (begun t o (.inr (.inr (.inr ⟨⟨t, o, r⟩, ?_, rfl, rfl⟩))))
    exact Stage.mem_tokens.mpr (.inr ⟨_, member, rfl⟩)
  rcases serves with earlier | ⟨entry, waiting, rfl, rfl⟩ | member | ⟨retry, queued, member⟩
  · exact .inl (started earlier)
  · rcases move.pending_kept waiting with still | popped
    · exact .inl (.inr (.inl ⟨entry, still, rfl, rfl⟩))
    · exact .inl (.inr (.inr (.inr ⟨_, _, popped⟩)))
  · rcases move.frame_kept member with kept | ⟨rest, top⟩
    · exact .inl (.inr (.inr (.inl kept)))
    · obtain ⟨frames, life⟩ := before
      simp only at top
      subst top
      cases move with
      | quiet => exact .inl (.inr (.inr (.inl (mem_cons_self ..))))
      | routeErased => exact .inr (.inl ⟨_, rfl, rfl⟩)
      | routeLost starting alone listed several =>
        exact .inr (.inr ⟨_, mem_cons_of_mem _ starting, alone, listed, several⟩)
      | routeOpened => exact .inl (.inr (.inr (.inr ⟨none, false, mem_cons_self ..⟩)))
  · rcases move.frame_kept member with kept | ⟨rest, top⟩
    · exact .inl (.inr (.inr (.inr ⟨retry, queued, kept⟩)))
    · obtain ⟨frames, life⟩ := before
      simp only at top
      subst top
      cases move with
      | quiet => exact .inl (.inr (.inr (.inr ⟨retry, queued, mem_cons_self ..⟩)))
      | flushed => exact .inl (.inl (mem_cons_self ..))
      | poolRefused _ threaded refused => exact absurd refused ((starts o).pool threaded)
      | createRefused _ direct refused => exact absurd refused ((starts o).direct direct).1
      | pipeRefused _ direct refused => exact absurd refused ((starts o).direct direct).2
      | enqueued =>
        exact .inl (.inr (.inl ⟨_, mem_append_right _ (mem_singleton_self _), rfl, rfl⟩))
      | enqueueRefused refused => exact absurd refused (allocates o)
      | unreadable | postponed | abandoned => exact .inl (retried (mem_cons_self ..))

structure Follows (before after : Stage) (old task : Task) : Prop where
  ref : old.ref = task.ref
  outs : (task.routes.map (·.out)).Sublist (old.routes.map (·.out))
  running : task.status = .running →
    old.status = .running ∨ ∀ route ∈ task.routes, .route task.ref route.out ∈ after.1
  dropped : ∀ route ∈ task.routes, ∃ was ∈ old.routes, was.out = route.out ∧
    (was.status = .dropped → route.status = .dropped ∨ before.Begun task.ref route.out)

theorem Follows.of_routes {old task : Task} (ref : old.ref = task.ref) (status : old.status = task.status)
    (routes : old.routes = task.routes) : Follows before after old task where
  ref := ref
  outs := by rw [routes]
  running := fun running => .inl (status.trans running)
  dropped := fun route listed => ⟨route, routes ▸ listed, rfl, fun dropped => .inl dropped⟩

private theorem setRouteStatus_outs (status : RouteStatus) (routes : List TaskRoute) :
    (setRouteStatus o status routes).map (·.out) = routes.map (·.out) := by
  induction routes with
  | nil => rfl
  | cons route rest ih =>
    unfold setRouteStatus
    split
    · rfl
    · rw [map_cons, map_cons, ih]

variable {route : TaskRoute} {status : RouteStatus} {earlier : List Action}

private theorem mem_setRouteStatus {routes : List TaskRoute} (member : route ∈ setRouteStatus o status routes) :
    ∃ was ∈ routes, was.out = route.out ∧ (was = route ∨ route.out = o ∧ route.status = status) := by
  induction routes with
  | nil => cases member
  | cons first rest ih =>
    unfold setRouteStatus at member
    split at member
    · next same =>
      rcases mem_cons.mp member with rfl | later
      · exact ⟨first, mem_cons_self .., rfl, .inr ⟨same, rfl⟩⟩
      · exact ⟨route, mem_cons_of_mem _ later, rfl, .inl rfl⟩
    · rcases mem_cons.mp member with rfl | later
      · exact ⟨route, mem_cons_self .., rfl, .inl rfl⟩
      · obtain ⟨was, listed, out, kind⟩ := ih later
        exact ⟨was, mem_cons_of_mem _ listed, out, kind⟩

variable {task : Task} {life : Life}

theorem Follows.of_change {change : Task → Task} (member : task ∈ (life.setTask t change).tasks)
    (follows : ∀ old, old.ref = t → Follows before after old (change old)) :
    ∃ old ∈ life.tasks, Follows before after old task := by
  obtain ⟨old, listed, changed⟩ := mem_setTask.mp member
  refine ⟨old, listed, ?_⟩
  split at changed
  next same => exact changed ▸ follows old same
  · exact .of_routes (changed ▸ rfl) (changed ▸ rfl) (changed ▸ rfl)

theorem Follows.of_eraseRoute (member : task ∈ (life.eraseRoute t o).tasks) :
    ∃ old ∈ life.tasks, Follows before after old task := by
  refine Follows.of_change member fun old _ => ⟨rfl, eraseP_sublist.map _, fun running => .inl running, ?_⟩
  intro route kept
  exact ⟨route, mem_of_mem_eraseP kept, rfl, fun dropped => .inl dropped⟩

theorem Follows.of_setRoute (member : task ∈ (life.setRoute t o status).tasks)
    (kind : status = .dropped ∨ before.Begun t o) : ∃ old ∈ life.tasks, Follows before after old task := by
  refine Follows.of_change member fun old same =>
    ⟨rfl, by rw [setRouteStatus_outs], fun running => .inl running, ?_⟩
  intro route kept
  obtain ⟨was, earlier, out, rfl | ⟨rfl, rfl⟩⟩ := mem_setRouteStatus kept
  · exact ⟨was, earlier, rfl, fun dropped => .inl dropped⟩
  · refine ⟨was, earlier, out, fun _ => kind.imp id fun begun => ?_⟩
    simpa [same] using begun

theorem Follows.of_setTask {change : Task → Task} (member : task ∈ (life.setTask t change).tasks)
    (refs : ∀ task, (change task).ref = task.ref) (statuses : ∀ task, (change task).status = task.status)
    (routes : ∀ task, (change task).routes = task.routes) :
    ∃ old ∈ life.tasks, Follows before after old task :=
  Follows.of_change member fun old _ => .of_routes (refs old).symm (statuses old).symm (routes old).symm

private theorem mem_of_mem_release (member : task ∈ (life.release t).tasks) : task ∈ life.tasks := by
  rcases release_cases t life with ⟨same, -⟩ | ⟨gone, -, -, -, same⟩
  · rwa [same] at member
  · rw [same] at member
    exact (mem_discard.mp member).1

theorem Move.task_origin (sound : Sound before) (move : Move env config rules before after)
    (member : task ∈ after.2.tasks) : (∃ old ∈ before.2.tasks, Follows before after old task) ∨
      task.status = .new ∧ rules.creates (task.routes.map (·.out)) := by
  have same : task ∈ before.2.tasks → ∃ old ∈ before.2.tasks, Follows before after old task :=
    fun listed => ⟨task, listed, .of_routes rfl rfl rfl⟩
  cases move with
  | quiet quiet => exact .inl (same (quiet.tasks ▸ member))
  | created _ isNew _ _ _ creates =>
    rcases mem_append.mp member with old | new
    · exact .inl (same old)
    · rw [mem_singleton.mp new]
      exact .inr ⟨isNew, creates⟩
  | destroyed =>
    rw [destroy_eq] at member
    exact .inl (same (mem_discard.mp member).1)
  | routeDropped => exact .inl (Follows.of_setRoute member (.inl rfl))
  | @phase flush phase status life listed =>
    exact .inl (Follows.of_setRoute member (.inr (.inl ⟨flush, listed, rfl, rfl⟩)))
  | erased | routeErased => exact .inl (Follows.of_eraseRoute member)
  | @run started life found isNew =>
    obtain ⟨old, listed, changed⟩ := mem_setTask.mp member
    split at changed
    · next named =>
      have identical : old = started := inj_on_of_nodup_map sound.distinct listed (task?_some found).1 named
      subst identical changed
      refine .inl ⟨old, listed, rfl, .refl _, fun _ => .inr fun route routed => ?_, fun route routed => ?_⟩
      · exact mem_append_left _ (mem_map.mpr ⟨route, routed, rfl⟩)
      · exact ⟨route, routed, rfl, fun dropped => .inl dropped⟩
    · exact .inl (same (changed ▸ listed))
  | finished =>
    have listed := mem_of_mem_release member
    rw [retryClean_eq] at listed
    exact .inl (Follows.of_setTask listed (fun _ => rfl) (fun _ => rfl) (fun _ => rfl))
  | unschedulable | abandoned =>
    have listed := mem_of_mem_release member
    exact .inl (same listed)
  | flushed | enqueued | enqueueRefused | popped | retriedAgain | retriedFirst =>
    exact .inl (Follows.of_setTask member (fun _ => rfl) (fun _ => rfl) (fun _ => rfl))
  | _ => exact .inl (same member)

private theorem released_release (suffix : .taskReleased task :: earlier <:+ (life.release t).history) :
    .taskReleased task :: earlier <:+ life.history ∨
      earlier = life.history ∧ life.task? t = some task ∧ task.users = 0 := by
  rcases release_cases t life with ⟨same, -⟩ | ⟨gone, found, unused, -, same⟩
  · rw [same] at suffix
    exact .inl suffix
  · rw [same] at suffix
    rcases suffix_cons_iff.mp suffix with new | old
    · cases new
      exact .inr ⟨rfl, found, unused⟩
    · exact .inl old

theorem Stage.pending_of_unclaimed {stage : Stage} (none : (stage.claimed t : Int) = 0) :
    stage.2.pending.countP (·.task = t) = 0 := by
  simp only [claimed] at none
  omega

theorem Move.released (sound : Sound before) (begun : ∀ t o, before.Begun t o → .flushStarted o t ∈ before.2.history)
    (move : Move env config rules before after) (suffix : .taskReleased task :: earlier <:+ after.2.history) :
    .taskReleased task :: earlier <:+ before.2.history ∨
      earlier = before.2.history ∧ ∃ old ∈ before.2.tasks, old.ref = task.ref ∧ old.routes = task.routes ∧
        old.status = .running ∧ ∀ o, before.Serves task.ref o → .flushStarted o task.ref ∈ before.2.history := by
  have ran : ∀ {old : Task} {frame : Frame}, old ∈ before.2.tasks → frame ∈ before.1 →
      frame.task? = some old.ref → old.status = .running := by
    intro old frame live framed names
    cases status : old.status with
    | running => rfl
    | new =>
      have absent := (sound.untouched old live status).1
      exact absurd (Stage.mem_mentioned.mpr (.inr (.inr (.inr ⟨frame, framed, names⟩)))) absent
  have kept : after.2.history = before.2.history → .taskReleased task :: earlier <:+ before.2.history :=
    fun same => same ▸ suffix
  have acted : ∀ {action : Action}, after.2.history = action :: before.2.history →
      (∀ task, action ≠ .taskReleased task) → .taskReleased task :: earlier <:+ before.2.history := by
    intro action same other
    rw [same] at suffix
    rcases suffix_cons_iff.mp suffix with new | old
    · cases new
      exact absurd rfl (other task)
    · exact old
  have served : ∀ {t : TaskRef}, before.2.pending.countP (·.task = t) = 0 → (∀ o, .route t o ∉ before.1) →
      (∀ o queued, .attempt t o none queued ∉ before.1) → ∀ o, before.Serves t o →
      .flushStarted o t ∈ before.2.history := by
    intro t none noRoute noAttempt o serves
    rcases serves with started | ⟨entry, waiting, names, -⟩ | route | ⟨retry, queued, attempt⟩
    · exact started
    · exact absurd (decide_eq_true names) (countP_eq_zero.mp none entry waiting)
    · exact absurd route (noRoute o)
    · cases retry with
      | none => exact absurd attempt (noAttempt o queued)
      | some r =>
        refine begun t o (.inr (.inr (.inr ⟨⟨t, o, r⟩, ?_, rfl, rfl⟩)))
        exact Stage.mem_tokens.mpr (.inr ⟨_, attempt, rfl⟩)
  cases move with
  | quiet quiet => exact .inl (kept quiet.history)
  | destroyed =>
    refine .inl (kept ?_)
    rw [destroy_eq]
  | leaked | dropCounted | flushed | poolRefused | createRefused | pipeRefused | enqueued | enqueueRefused
  | dropped | limitReached => exact .inl (acted rfl nofun)
  | @finished t o life =>
    rcases released_release suffix with old | ⟨rfl, found, unused⟩
    · rw [retryClean_eq] at old
      exact .inl old
    · obtain ⟨member, named⟩ := task?_some found
      have balanced := sound.balanced_closing task member
      rw [unused, named] at balanced
      rw [retryClean_eq] at member balanced ⊢
      obtain ⟨old, listed, changed⟩ := mem_setTask.mp member
      have ref : old.ref = task.ref := by
        rw [← changed]
        split <;> rfl
      have routes : old.routes = task.routes := by
        rw [← changed]
        split <;> rfl
      refine .inr ⟨rfl, old, listed, ref, routes, ran listed (mem_singleton_self _) ?_, ?_⟩
      · rw [ref, named]
        rfl
      · rw [named]
        exact served (@Stage.pending_of_unclaimed t ([], _) balanced.symm) (by simp) (by simp)
  | @unschedulable t o r life =>
    rcases released_release suffix with old | ⟨rfl, found, unused⟩
    · exact .inl old
    · obtain ⟨member, named⟩ := task?_some found
      have balanced := sound.balanced_unscheduled task member
      rw [unused] at balanced
      refine .inr ⟨rfl, task, member, rfl, rfl, ran member (mem_singleton_self _) (named ▸ rfl), ?_⟩
      exact served (Stage.pending_of_unclaimed balanced.symm) (by simp) (by simp)
  | @abandoned t o r req life =>
    rcases released_release suffix with old | ⟨rfl, found, unused⟩
    · exact .inl old
    · obtain ⟨member, named⟩ := task?_some found
      have balanced := sound.balanced_abandoned task member
      rw [unused] at balanced
      refine .inr ⟨rfl, task, member, rfl, rfl, ran member (mem_cons_self ..) (named ▸ rfl), ?_⟩
      exact served (Stage.pending_of_unclaimed balanced.symm) (by simp) (by simp)
  | _ => exact .inl (kept rfl)

def Routable (config : Config) (outs : List OutId) : Prop :=
  outs.Nodup ∧ ∀ o ∈ outs, config.isNoMultiplex o = true → outs.length ≤ 1

theorem Routable.sublist {outs fewer : List OutId} (routable : Routable config outs) (sublist : fewer.Sublist outs) :
    Routable config fewer := by
  obtain ⟨distinct, alone⟩ := routable
  refine ⟨sublist.nodup distinct, fun o listed noMultiplex => ?_⟩
  exact Nat.le_trans sublist.length_le (alone o (sublist.subset listed) noMultiplex)

structure Served (config : Config) (stage : Stage) : Prop where
  begun : ∀ t o, stage.Begun t o → .flushStarted o t ∈ stage.2.history
  tasks : ∀ task ∈ stage.2.tasks, Routable config (task.routes.map (·.out))
  starting : ∀ t outs, .starting t outs ∈ stage.1 → Routable config outs
  routes : ∀ task ∈ stage.2.tasks, task.status = .running →
    ∀ route ∈ task.routes, route.status = .dropped ∨ stage.Serves task.ref route.out
  released : ∀ task earlier, .taskReleased task :: earlier <:+ stage.2.history →
    ∀ route ∈ task.routes, route.status = .dropped ∨ .flushStarted route.out task.ref ∈ earlier

theorem Served.not_mem_eraseRoute (served : Served config before)
    (member : task ∈ (before.2.eraseRoute task.ref route.out).tasks) : route ∉ task.routes := by
  obtain ⟨old, live, changed⟩ := mem_setTask.mp member
  have named : old.ref = task.ref := by
    rw [← changed]
    split <;> rfl
  rw [if_pos named] at changed
  rw [← changed]
  intro listed
  have distinct := (served.tasks old live).1
  have erased : (old.routes.eraseP (·.out = route.out)).map (·.out) = (old.routes.map (·.out)).erase route.out := by
    rw [List.erase_eq_eraseP', eraseP_map]
    simp [Function.comp_def, beq_eq_decide]
  have outs : route.out ∈ (old.routes.eraseP (·.out = route.out)).map (·.out) := mem_map_of_mem listed
  rw [erased] at outs
  exact distinct.not_mem_erase outs

theorem Served.step (starts : ∀ o, FlushStarts env config o) (allocates : ∀ o, ¬env.Refuses (.enqueueAlloc o))
    (creates : ∀ outs, rules.creates outs → Routable config outs) (wellFormed : WellFormed before)
    (served : Served config before) (move : Move env config rules before after) : Served config after := by
  have sound := wellFormed.sound
  constructor
  · intro t o left
    rcases move.begun_origin sound left with earlier | started
    · exact move.history_suffix.subset (served.begun t o earlier)
    · exact started
  · intro task member
    rcases move.task_origin sound member with ⟨old, live, follows⟩ | ⟨-, created⟩
    · exact (served.tasks old live).sublist follows.outs
    · exact creates _ created
  · intro t outs member
    rcases move.frame_origin sound member with earlier | ⟨task, live, -, rfl⟩
    · exact served.starting t outs earlier
    · exact served.tasks task live
  · intro task member running route listed
    rcases move.task_origin sound member with ⟨old, live, follows⟩ | ⟨isNew, -⟩
    · obtain ⟨was, routed, out, dropped⟩ := follows.dropped route listed
      rcases follows.running running with ran | framed
      · rcases served.routes old live ran was routed with isDropped | serves
        · rcases dropped isDropped with still | left
          · exact .inl still
          · exact .inr (.inl (move.history_suffix.subset (served.begun _ _ left)))
        · rw [follows.ref, out] at serves
          rcases move.serves starts allocates served.begun serves with still | ⟨frames, -, rfl⟩ |
            ⟨outs, framed, noMultiplex, listed, several⟩
          · exact .inr still
          · -- the route was erased, and its output has no other
            exact absurd listed (served.not_mem_eraseRoute member)
          · have alone := (served.starting _ outs framed).2 _ listed noMultiplex
            omega
      · exact .inr (.inr (.inr (.inl (framed route listed))))
    · rw [isNew] at running
      cases running
  · intro task earlier suffix route listed
    rcases move.released sound served.begun suffix with old | ⟨rfl, old, live, ref, routes, ran, started⟩
    · exact served.released task earlier old route listed
    · rcases served.routes old live ran route (routes ▸ listed) with dropped | serves
      · exact .inl dropped
      · rw [ref] at serves
        exact .inr (started _ serves)

theorem taskOutputs_nodup (routing : Routing) : (taskOutputs config routing).Nodup := by
  unfold taskOutputs
  split
  · exact (filter_sublist.map _).nodup config.outputIds
  · next direct _ =>
    cases found : config.input? routing.ins with
    | none => simp [Config.routesDirect, found]
    | some input =>
      simp only [Config.routesDirect, found, Option.elim_some]
      exact input.directOnce

section Runs

variable {onDisk : OnDisk} {engine : Engine}

def NoMultiplexAlone (config : Config) (engine : Engine) (event : Event) : Prop :=
  ∀ i, event = .dispatch i → ∀ routing ∈ engine.storage.routings, ∀ o ∈ taskOutputs config routing,
    config.isNoMultiplex o = true → (taskOutputs config routing).length ≤ 1

private theorem served_reachable (starts : ∀ o, FlushStarts env config o)
    (allocates : ∀ o, ¬env.Refuses (.enqueueAlloc o))
    (path : Runs.Path (step env config) (NoMultiplexAlone config) (started onDisk) engine) :
    Served config ([], engine.life) := by
  have initial : Served config ([], (started onDisk).life) := by
    constructor
    · intro t o begun
      simp [Stage.Begun, Stage.tokens, Engine.life, started] at begun
    · intro task member
      cases member
    · intro t outs member
      cases member
    · intro task member
      cases member
    · intro task earlier suffix
      simp [Engine.life, started] at suffix
  refine (moves_invariant (Served config) initial ?_ path).2
  intro engine event _ _ admitted before after _ _ move wellFormed held
  refine held.step starts allocates (fun outs creates => ?_) wellFormed move
  obtain ⟨i, dispatched, routing, listed, sublist⟩ := creates
  exact Routable.sublist ⟨taskOutputs_nodup routing, admitted i dispatched routing listed⟩ sublist

/-- In every run in which flushes start, queue entries can be allocated and
outputs that cannot be multiplexed have their tasks alone, each route of a task
that is released was dropped or had a flush started before. A task with a route
that is yet to be started or queued is not running, so it is dispatched again. -/
theorem released_routes_were_started (starts : ∀ o, FlushStarts env config o)
    (allocates : ∀ o, ¬env.Refuses (.enqueueAlloc o))
    (path : Runs.Path (step env config) (NoMultiplexAlone config) (started onDisk) engine) :
    (∀ task earlier, .taskReleased task :: earlier <:+ engine.history → ∀ route ∈ task.routes,
      route.status = .dropped ∨ .flushStarted route.out task.ref ∈ earlier) ∧
    ∀ task ∈ engine.tasks, task.status = .running → ∀ route ∈ task.routes,
      route.status = .dropped ∨ .flushStarted route.out task.ref ∈ engine.history ∨
        ∃ entry ∈ engine.pending, entry.task = task.ref ∧ entry.out = route.out := by
  have served := served_reachable starts allocates path
  refine ⟨served.released, fun task live running route listed => ?_⟩
  rcases served.routes task live running route listed with dropped | started | waiting | framed | ⟨_, _, framed⟩
  · exact .inl dropped
  · exact .inr (.inl started)
  · exact .inr (.inr waiting)
  · cases framed
  · cases framed

end Runs

namespace Sample

def exclusive : Config := Sample.config .mem [{ output 0 with noMultiplex := true }] (by decide)

def shared : Config := Sample.config .mem [{ output 0 with noMultiplex := true }, output 1] (by decide)

private theorem exclusive_noMultiplexAlone (engine : Engine) (event : Event) :
    NoMultiplexAlone exclusive engine event := by
  intro i _ routing _ o _ _
  have direct : exclusive.routesDirect routing.ins = [] := by
    unfold Config.routesDirect
    cases found : exclusive.input? routing.ins with
    | none => rfl
    | some given =>
      have listed : given ∈ [input 0 .mem, input 9 .fs] := mem_of_find?_eq_some found
      simp only [mem_cons, not_mem_nil, or_false] at listed
      rcases listed with rfl | rfl
      · rfl
      · rfl
  unfold taskOutputs
  rw [direct, length_map]
  exact length_filter_le _ _

/-- The first of two tasks keeps output 0 busy; the flush `f` of a task is delivered. -/
def twoTasks (f : Nat) : List Event :=
  [.append (logs [1]), .append (logs [2]), .dispatch 0, .preCbFlush f, .outputReturn f .ok, .outputEvent f]

end Sample

open Sample in
theorem released_routes_were_started_exclusive :
    (Runs.after (step willing exclusive) (started noDisk) (twoTasks 6)).history =
      [.taskReleased ⟨4, 0, .running, 0, 1, [⟨.inactive, 0⟩], 0, 1⟩, .flushStarted 0 4] ∧
    ∀ task earlier, .taskReleased task :: earlier <:+
        (Runs.after (step willing exclusive) (started noDisk) (twoTasks 6)).history → ∀ route ∈ task.routes,
      route.status = .dropped ∨ .flushStarted route.out task.ref ∈ earlier := by
  have admitted : Runs.Admits (step willing exclusive) (NoMultiplexAlone exclusive) (started noDisk) (twoTasks 6) :=
    admits_of_forall exclusive_noMultiplexAlone _ _
  refine ⟨by decide +kernel, ?_⟩
  exact (released_routes_were_started (flushStarts_willing exclusive) (fun o => willing_never_refuses _)
    (path_after (twoTasks 6) admitted)).1

open Sample in
/-- The second task is released without a flush on the output that was busy. -/
theorem skipped_route_is_lost : ¬∀ (env : Env) (config : Config) (onDisk : OnDisk) (engine : Engine),
      Runs.Path (step env config) anyEvent (started onDisk) engine →
        ∀ task earlier, .taskReleased task :: earlier <:+ engine.history → ∀ route ∈ task.routes,
          route.status = .dropped ∨ .flushStarted route.out task.ref ∈ earlier := by
  intro holds
  have history : (Runs.after (step willing shared) (started noDisk) (twoTasks 8)).history =
      [.taskReleased ⟨5, 1, .running, 0, 1, [⟨.inactive, 0⟩, ⟨.inactive, 1⟩], 0, 3⟩, .flushStarted 1 5,
        .flushStarted 1 4, .flushStarted 0 4] := by decide +kernel
  have released := holds willing shared noDisk _ (reached (step willing shared) (started noDisk) (twoTasks 8))
  rw [history] at released
  have lost := released _ _ (suffix_refl _) ⟨.inactive, 0⟩ (by decide)
  revert lost
  decide

end FluentBit
