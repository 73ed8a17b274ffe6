import FluentBit.Engine.TaskRoutes

/-! What is under way for a task on an output: a route to visit, a flush, a
queue entry, a result in hand or a request that is due. At most one of these
exists at a time, as long as retries are not rescheduled while their flush is
under way. -/

set_option autoImplicit false

namespace FluentBit

open List hiding beq_eq_decide
open Tally Life Function

variable {env : Env} {config : Config} {rules : Rules} {before after : Stage} {t : TaskRef} {o : OutId}

def Frame.occupies (t : TaskRef) (o : OutId) : Frame → Bool
  | .route t' o' | .attempt t' o' _ _ | .doomed t' o' _ | .result t' o' | .closing t' o'
  | .unscheduled t' o' _ => decide (t' = t) && decide (o' = o)
  | _ => false

namespace Stage

def occupied (stage : Stage) (t : TaskRef) (o : OutId) : Nat :=
  stage.2.flushes.countP (fun flush => decide (flush.task = t) && decide (flush.out = o)) +
    stage.2.pending.countP (fun entry => decide (entry.task = t) && decide (entry.out = o)) +
    stage.1.countP (Frame.occupies t o)

def due (stage : Stage) (r : RetryRef) : Nat :=
  stage.2.requests.countP fun request =>
    decide (request.data = r) && decide (.spent request.ref r ∉ stage.1)

def Names (stage : Stage) (t : TaskRef) (o : OutId) (retry : Option RetryRef) : Prop :=
  (.route t o ∈ stage.1 ∧ retry = none) ∨ (∃ queued, .attempt t o retry queued ∈ stage.1) ∨
    .doomed t o retry ∈ stage.1 ∨ (∃ r, .unscheduled t o r ∈ stage.1 ∧ retry = some r) ∨
    ∃ entry ∈ stage.2.pending, entry.task = t ∧ entry.out = o ∧ entry.retry = retry

end Stage

variable {frame : Frame}

section Counting

variable {life : Life} {t' : TaskRef} {o' : OutId}

@[simp] theorem occupies_whenSynchronous : (whenSynchronous config o').countP (Frame.occupies t o) = 0 :=
  countP_whenSynchronous rfl

@[simp] theorem occupies_whenIdle : (whenIdle life o').countP (Frame.occupies t o) = 0 := countP_whenIdle rfl

@[simp] theorem occupies_afterFailure (queued : Bool) (retry : Option RetryRef) :
    (afterFailure queued t' o' retry).countP (Frame.occupies t o) =
      if decide (t' = t) && decide (o' = o) then 1 else 0 :=
  countP_afterFailure rfl

@[simp] theorem Frame.mem_whenSynchronous_iff :
    frame ∈ whenSynchronous config o ↔ config.isSynchronous o = true ∧ frame = .advance o := by
  unfold whenSynchronous
  split
  · next synchronous => simp [synchronous]
  · next plain => simp [plain]

@[simp] theorem Frame.mem_whenIdle_iff :
    frame ∈ whenIdle life o ↔ (life.inProgress.find? (·.out = o)).isNone = true ∧ frame = .turn o := by
  unfold whenIdle
  split
  · next idle => simp [idle]
  · next busy => simp [busy]

@[simp] theorem Frame.mem_afterFailure_iff {queued : Bool} {retry : Option RetryRef} :
    frame ∈ afterFailure queued t o retry ↔ frame = .doomed t o retry ∨ queued = true ∧ frame = .advance o := by
  unfold afterFailure
  cases queued <;> simp

end Counting

section Occupied

variable {frames : List Frame} {life : Life}

theorem flushes_setPhase (f : Nat) (phase : FlushPhase) :
    (life.setPhase f phase).flushes.countP (fun flush => decide (flush.task = t) && decide (flush.out = o)) =
      life.flushes.countP fun flush => decide (flush.task = t) && decide (flush.out = o) := by
  have pairs : (life.setPhase f phase).flushes.map (fun flush => (flush.task, flush.out)) =
      life.flushes.map (fun flush => (flush.task, flush.out)) := map_replace_of_fixed fun _ => rfl
  have counts := congrArg (countP fun pair => decide (pair.1 = t) && decide (pair.2 = o)) pairs
  simpa only [countP_map, comp_def] using counts

theorem flushes_result {f : Nat} {flush : OutputFlush} (found : life.flushes.find? (·.ref = f) = some flush) :
    life.flushes.countP (fun flush => decide (flush.task = t) && decide (flush.out = o)) =
      (life.flushes.eraseP (·.ref = f)).countP (fun flush => decide (flush.task = t) && decide (flush.out = o)) +
        if flush.task = t ∧ flush.out = o then 1 else 0 := by
  have moved := countP_eraseP (q := fun flush => decide (flush.task = t) && decide (flush.out = o)) found
  simpa only [Bool.and_eq_true, decide_eq_true_eq] using moved

private theorem occupied_setPhase (f : Nat) (phase : FlushPhase) :
    Stage.occupied (frames, life.setPhase f phase) t o = Stage.occupied (frames, life) t o := by
  simp only [Stage.occupied, flushes_setPhase]
  rfl

private theorem occupied_popped {entry : TaskEnqueued} {o' : OutId}
    (found : life.pending.find? (·.out = o') = some entry) :
    Stage.occupied (.attempt entry.task o' entry.retry true :: frames, life.pop entry o') t o =
      Stage.occupied (.turn o' :: frames, life) t o := by
  have names : entry.out = o' := by simpa using find?_some found
  have moved := countP_eraseP (q := fun entry => decide (entry.task = t) && decide (entry.out = o)) found
  rw [names] at moved
  by_cases same : entry.task = t ∧ o' = o
  · simp [Stage.occupied, Frame.occupies, same] at moved ⊢
    omega
  · simp [Stage.occupied, Frame.occupies, same] at moved ⊢
    omega

private theorem occupied_result {f : Nat} {flush : OutputFlush} (found : life.flushes.find? (·.ref = f) = some flush) :
    Stage.occupied (whenSynchronous config flush.out ++ [.result flush.task flush.out],
      { life with flushes := life.flushes.eraseP (·.ref = f) }) t o = Stage.occupied ([], life) t o := by
  simp [Stage.occupied, Frame.occupies, flushes_result found]
  omega

end Occupied

theorem Move.occupied_le (sound : Sound before) (move : Move env config rules before after) (t : TaskRef) (o : OutId) :
    after.occupied t o ≤ before.occupied t o ∨ (∃ task ∈ before.2.tasks, task.ref = t ∧ task.status = .new ∧
        after.occupied t o = before.occupied t o + (task.routes.map (·.out)).count o) ∨
      ∃ request ∈ before.2.requests, ∃ retry ∈ before.2.retries, request.data = retry.ref ∧ before.1 = [] ∧
        retry.parent = t ∧ retry.out = o ∧ after.occupied t o = before.occupied t o + 1 := by
  cases move with
  | quiet quiet =>
    refine .inl (Nat.le_of_eq ?_)
    simp [Stage.occupied, quiet.flushes, quiet.pending]
  | destroyed =>
    rw [destroy_eq]
    exact .inl (Nat.le_refl _)
  | phase => exact .inl (Nat.le_of_eq (occupied_setPhase _ _))
  | @run task life found isNew =>
    have live := (task?_some found).1
    by_cases same : task.ref = t
    · refine .inr (.inl ⟨task, live, same, isNew, ?_⟩)
      have routes : (task.routes.map fun route => Frame.route task.ref route.out).countP (Frame.occupies t o) =
          (task.routes.map (·.out)).count o := by
        rw [List.count, countP_map, countP_map]
        simp [comp_def, Frame.occupies, same, beq_eq_decide]
      simp only [Stage.occupied, countP_append, routes]
      simp [Frame.occupies]
    · refine .inl (Nat.le_of_eq ?_)
      simp only [Stage.occupied, countP_append]
      rw [countP_routeFrames _ (fun _ => by simp [Frame.occupies, same])]
      simp [Frame.occupies]
  | popped found => exact .inl (Nat.le_of_eq (occupied_popped found))
  | @result f flush t' life found slot =>
    rw [sound.result_task slot]
    exact .inl (Nat.le_of_eq (occupied_result found))
  | finished =>
    rw [release_eq, retryClean_eq]
    refine .inl ?_
    simp [Stage.occupied]
  | unschedulable | abandoned =>
    rw [release_eq]
    refine .inl ?_
    simp [Stage.occupied, Frame.occupies]
  | @fired request retry life listed live data =>
    by_cases same : retry.parent = t ∧ retry.out = o
    · refine .inr (.inr ⟨request, listed, retry, live, data, rfl, same.1, same.2, ?_⟩)
      simp [Stage.occupied, Frame.occupies, same]
    · refine .inl (Nat.le_of_eq ?_)
      simp [Stage.occupied, Frame.occupies, same]
  | _ =>
    refine .inl ?_
    simp [Stage.occupied, Frame.occupies, countP_cons]
    try omega

/-- Retries are in at most one place, and what is under way for a route of a
task is for the retry of that route. -/
structure Exclusive (stage : Stage) : Prop where
  routes : ∀ task ∈ stage.2.tasks, (task.routes.map (·.out)).Nodup
  lone : ∀ t o, stage.occupied t o ≤ 1
  single : ∀ left ∈ stage.2.retries, ∀ right ∈ stage.2.retries,
    left.parent = right.parent → left.out = right.out → left = right
  owned : ∀ request ∈ stage.2.requests, ∃ retry ∈ stage.2.retries, retry.ref = request.data
  spent : ∀ req r, .spent req r ∈ stage.1 → req < stage.2.nextRef ∧
    ∀ request ∈ stage.2.requests, request.ref = req → request.data = r
  alive : ∀ t o r, .attempt t o (some r) false ∈ stage.1 ∨ .unscheduled t o r ∈ stage.1 →
    ∃ live ∈ stage.2.retries, live.ref = r
  named : ∀ t o retry, stage.Names t o retry → ∀ live ∈ stage.2.retries,
    live.parent = t → live.out = o → retry = some live.ref
  placed : ∀ retry ∈ stage.2.retries, stage.occupied retry.parent retry.out + stage.due retry.ref ≤ 1

variable {retry : TaskRetry}

namespace Exclusive

private theorem occupied_new (sound : Sound before) {task : Task} (live : task ∈ before.2.tasks)
    (isNew : task.status = .new) : before.occupied task.ref o = 0 := by
  obtain ⟨unmentioned, -⟩ := sound.untouched task live isNew
  have flushes : before.2.flushes.countP
      (fun flush => decide (flush.task = task.ref) && decide (flush.out = o)) = 0 := by
    rw [countP_eq_zero]
    intro flush member same
    simp only [Bool.and_eq_true, decide_eq_true_eq] at same
    exact unmentioned (Stage.mem_mentioned.mpr (.inl ⟨flush, member, same.1⟩))
  have pending : before.2.pending.countP
      (fun entry => decide (entry.task = task.ref) && decide (entry.out = o)) = 0 := by
    rw [countP_eq_zero]
    intro entry member same
    simp only [Bool.and_eq_true, decide_eq_true_eq] at same
    exact unmentioned (Stage.mem_mentioned.mpr (.inr (.inl ⟨entry, member, same.1⟩)))
  have frames : before.1.countP (Frame.occupies task.ref o) = 0 := by
    rw [countP_eq_zero]
    intro frame member same
    refine unmentioned (Stage.mem_mentioned.mpr (.inr (.inr (.inr ⟨frame, member, ?_⟩))))
    cases frame with
    | starting | advance | turn | spent => cases same
    | _ =>
      simp only [Frame.occupies, Bool.and_eq_true, decide_eq_true_eq] at same
      rw [← same.1]
      rfl
  simp [Stage.occupied, flushes, pending, frames]

private theorem requests_le (wellFormed : WellFormed before) (exclusive : Exclusive before)
    (listed : retry ∈ before.2.retries) (busy : before.1 = [] ∨ 0 < before.occupied retry.parent retry.out) :
    before.2.requests.countP (·.data = retry.ref) ≤ 1 := by
  have placed := exclusive.placed retry listed
  rcases busy with idle | occupied
  · have same : before.2.requests.countP (·.data = retry.ref) = before.due retry.ref := by
      simp [Stage.due, idle]
    omega
  · have none : before.due retry.ref = 0 := by omega
    refine countP_le_one wellFormed.sound.requestsDistinct fun left leftListed right rightListed => ?_
    have spent : ∀ request ∈ before.2.requests, decide (request.data = retry.ref) = true →
        .spent request.ref retry.ref ∈ before.1 := by
      intro request member data
      by_contra unspent
      rw [Stage.due, countP_eq_zero] at none
      exact none request member (by simp [of_decide_eq_true data, unspent])
    intro leftData rightData
    exact wellFormed.shaped.spent_unique (spent left leftListed leftData) (spent right rightListed rightData)

theorem not_mem_rest (exclusive : Exclusive before) {top frame : Frame} {rest : List Frame}
    (shape : before.1 = top :: rest) (topOccupies : top.occupies t o = true) (occupies : frame.occupies t o = true) :
    frame ∉ rest := by
  intro member
  have lone := exclusive.lone t o
  have some : 0 < rest.countP (Frame.occupies t o) := countP_pos_iff.mpr ⟨frame, member, occupies⟩
  rw [Stage.occupied, shape, countP_cons_of_pos topOccupies] at lone
  omega

end Exclusive

theorem Frame.occupies_of_token {r : RetryRef} (token : frame.token? = some ⟨t, o, r⟩) : frame.occupies t o = true := by
  cases frame with
  | attempt t' o' retry queued | doomed t' o' retry =>
    cases retry with
    | none => cases token
    | some r' =>
      cases token
      simp [Frame.occupies]
  | unscheduled t' o' r' =>
    cases token
    simp [Frame.occupies]
  | _ => cases token

theorem Stage.occupied_of_frame {stage : Stage} (member : frame ∈ stage.1) (occupies : frame.occupies t o = true) :
    0 < stage.occupied t o := by
  have some : 0 < stage.1.countP (Frame.occupies t o) := countP_pos_iff.mpr ⟨frame, member, occupies⟩
  exact Nat.lt_of_lt_of_le some (Nat.le_add_left _ _)

theorem mem_retries_destroy {life : Life} {task : Task} (distinct : (life.retries.map (·.ref)).Nodup)
    (listed : retry ∈ life.retries) (other : retry.parent ≠ task.ref) : retry ∈ (life.destroy task).retries := by
  rw [destroy_eq]
  refine mem_filter.mpr ⟨listed, decide_eq_true fun member => ?_⟩
  obtain ⟨same, sameListed, ref⟩ := mem_map.mp member
  obtain ⟨live, parent⟩ := mem_filter.mp sameListed
  cases inj_on_of_nodup_map distinct live listed ref
  exact other (of_decide_eq_true parent)

theorem Move.retry_fate (wellFormed : WellFormed before) (exclusive : Exclusive before)
    (move : Move env config rules before after) (listed : retry ∈ before.2.retries) :
    (∃ later ∈ after.2.retries, later.ref = retry.ref ∧ later.parent = retry.parent ∧ later.out = retry.out) ∨
      (∀ request ∈ after.2.requests, request.data ≠ retry.ref) ∧
        ∀ t o, .attempt t o (some retry.ref) false ∉ after.1 ∧ .unscheduled t o retry.ref ∉ after.1 := by
  have kept : after.2.retries = before.2.retries →
      ∃ later ∈ after.2.retries, later.ref = retry.ref ∧ later.parent = retry.parent ∧ later.out = retry.out :=
    fun same => ⟨retry, same ▸ listed, rfl, rfl, rfl⟩
  have stays : ∀ {r : RetryRef}, after.2.retries = before.2.retries.filter (·.ref ≠ r) → retry.ref ≠ r →
      ∃ later ∈ after.2.retries, later.ref = retry.ref ∧ later.parent = retry.parent ∧ later.out = retry.out := by
    intro r same different
    exact ⟨retry, same ▸ mem_filter.mpr ⟨listed, decide_eq_true different⟩, rfl, rfl, rfl⟩
  have gone : (before.1 = [] ∨ 0 < before.occupied retry.parent retry.out) →
      after.2.requests.countP (·.data = retry.ref) ≤ before.2.requests.countP (·.data = retry.ref) - 1 →
      ∀ request ∈ after.2.requests, request.data ≠ retry.ref := by
    intro busy fewer request member same
    have most := exclusive.requests_le wellFormed listed busy
    have none : after.2.requests.countP (·.data = retry.ref) = 0 := by omega
    exact countP_eq_zero.mp none request member (decide_eq_true same)
  have busy : ∀ {frame : Frame} {t : TaskRef} {o : OutId}, frame ∈ before.1 →
      frame.token? = some ⟨t, o, retry.ref⟩ → retry.parent = t ∧ retry.out = o := by
    intro frame t o framed token
    exact (wellFormed.matched _ (Stage.mem_tokens.mpr (.inr ⟨frame, framed, token⟩))).2 retry listed rfl
  have lost : ∀ {frame : Frame} {t : TaskRef} {o : OutId}, frame ∈ before.1 →
      frame.token? = some ⟨t, o, retry.ref⟩ → after.2.requests = before.2.requests.eraseP (·.data = retry.ref) →
      ∀ request ∈ after.2.requests, request.data ≠ retry.ref := by
    intro frame t o framed token requests
    obtain ⟨rfl, rfl⟩ := busy framed token
    refine gone (.inr (Stage.occupied_of_frame framed (Frame.occupies_of_token token))) ?_
    rw [requests]
    exact Nat.le_of_eq (countP_eraseP_self _ _)
  have result : ∀ {t : TaskRef} {o : OutId} {old : TaskRetry} {frame : Frame}, before.2.findRetry t o = some old →
      frame ∈ before.1 → frame.occupies t o = true → retry.ref = old.ref →
      after.2.requests = before.2.requests.eraseP (·.data = old.ref) →
      ∀ request ∈ after.2.requests, request.data ≠ retry.ref := by
    intro t o old frame found framed occupies same requests
    obtain ⟨oldListed, rfl, rfl⟩ := findRetry_some found
    cases inj_on_of_nodup_map wellFormed.sound.retriesDistinct listed oldListed same
    refine gone (.inr (Stage.occupied_of_frame framed occupies)) ?_
    rw [requests]
    exact Nat.le_of_eq (countP_eraseP_self _ _)
  cases move with
  | quiet quiet => exact .inl (kept quiet.retries)
  | @destroyed task life found unused =>
    by_cases own : retry.parent = task.ref
    · refine .inr ⟨gone (.inl rfl) ?_, fun t o => ⟨not_mem_nil, not_mem_nil⟩⟩
      rw [destroy_eq]
      refine countP_foldl_eraseP_le ?_ life.requests
      exact mem_map.mpr ⟨retry, mem_filter.mpr ⟨listed, decide_eq_true own⟩, rfl⟩
    · have stays := mem_retries_destroy wellFormed.sound.retriesDistinct listed own
      exact .inl ⟨retry, stays, rfl, rfl, rfl⟩
  | @doomed t o r frames life =>
    by_cases own : retry.ref = r
    · subst own
      have top : Frame.doomed t o (some retry.ref) ∈ Frame.doomed t o (some retry.ref) :: frames :=
        mem_cons_self ..
      have alone : ∀ {frame : Frame} {t' : TaskRef} {o' : OutId},
          frame.token? = some ⟨t', o', retry.ref⟩ → frame ∉ frames := by
        intro frame t' o' token member
        obtain ⟨rfl, rfl⟩ := busy top rfl
        obtain ⟨rfl, rfl⟩ := busy (mem_cons_of_mem _ member) token
        exact exclusive.not_mem_rest rfl (Frame.occupies_of_token rfl) (Frame.occupies_of_token token) member
      exact .inr ⟨lost top rfl rfl, fun t' o' => ⟨alone rfl, alone rfl⟩⟩
    · exact .inl (stays rfl own)
  | @limitReached t o old life found =>
    by_cases own : retry.ref = old.ref
    · refine .inr ⟨?_, fun t' o' => ⟨by simp, by simp⟩⟩
      exact result found (mem_singleton_self _) (by simp [Frame.occupies]) own rfl
    · exact .inl (stays rfl own)
  | @finished t o life =>
    rcases retryClean_cases t o life with ⟨cleaned, -⟩ | ⟨old, found, cleaned⟩
    · refine .inl (kept ?_)
      rw [release_eq, cleaned]
      rfl
    · by_cases own : retry.ref = old.ref
      · refine .inr ⟨?_, fun t' o' => ⟨not_mem_nil, not_mem_nil⟩⟩
        refine result found (mem_singleton_self _) (by simp [Frame.occupies]) own ?_
        rw [release_eq, cleaned]
        rfl
      · refine .inl (stays ?_ own)
        rw [release_eq, cleaned]
        rfl
  | @unschedulable t o r life =>
    by_cases own : retry.ref = r
    · subst own
      refine .inr ⟨lost (mem_singleton_self _) rfl ?_, fun t' o' => ⟨not_mem_nil, not_mem_nil⟩⟩
      rw [release_eq]
      rfl
    · refine .inl (stays ?_ own)
      rw [release_eq]
      rfl
  | @abandoned t o r req life =>
    by_cases own : retry.ref = r
    · subst own
      refine .inr ⟨lost (mem_cons_self ..) rfl ?_, fun t' o' => ⟨by simp, by simp⟩⟩
      rw [release_eq]
      rfl
    · refine .inl (stays ?_ own)
      rw [release_eq]
      rfl
  | @retriedAgain t o old life found =>
    refine .inl ⟨_, mem_replace.mpr ⟨retry, listed, rfl⟩, ?_⟩
    split
    · exact ⟨rfl, rfl, rfl⟩
    · exact ⟨rfl, rfl, rfl⟩
  | retriedFirst => exact .inl ⟨retry, mem_append_left _ listed, rfl, rfl, rfl⟩
  | _ => exact .inl (kept rfl)

section Due

variable {frames frames' : List Frame} {life life' : Life} {r r' : RetryRef}

theorem Stage.due_perm (requests : life'.requests.Perm life.requests)
    (spent : ∀ req, .spent req r ∈ frames' ↔ .spent req r ∈ frames) :
    Stage.due (frames', life') r = Stage.due (frames, life) r := by
  simp only [Stage.due, spent]
  exact requests.countP_eq _

theorem Stage.due_eraseP (different : r ≠ r') (requests : life'.requests = life.requests.eraseP (·.data = r'))
    (spent : ∀ req, .spent req r ∈ frames' ↔ .spent req r ∈ frames) :
    Stage.due (frames', life') r = Stage.due (frames, life) r := by
  simp only [Stage.due, spent, requests]
  apply countP_eraseP_apart
  intro request names
  simp [of_decide_eq_true names, Ne.symm different]

theorem Stage.due_schedule {request : SchedRequest} (requests : life'.requests = life.requests ++ [request])
    (fresh : ∀ req, .spent req r ∈ frames' → req < request.ref)
    (spent : ∀ req, .spent req r ∈ frames' ↔ .spent req r ∈ frames) :
    Stage.due (frames', life') r = Stage.due (frames, life) r + if request.data = r then 1 else 0 := by
  have unspent : .spent request.ref r ∉ frames := fun member => Nat.lt_irrefl _ (fresh _ ((spent _).mpr member))
  simp only [Stage.due, spent, requests, countP_append, countP_cons, countP_nil]
  by_cases same : request.data = r <;> simp [same, unspent]

end Due

/-- What is under way for a retry and what is due for it add up to the same as
before, unless the worker of its output refuses it or it is rescheduled. -/
theorem Move.weight (wellFormed : WellFormed before) (exclusive : Exclusive before)
    (move : Move env config rules before after) (listed : retry ∈ before.2.retries)
    (survives : ∃ later ∈ after.2.retries, later.ref = retry.ref) :
    after.occupied retry.parent retry.out + after.due retry.ref =
        before.occupied retry.parent retry.out + before.due retry.ref ∨
      (after.occupied retry.parent retry.out + after.due retry.ref ≤
          before.occupied retry.parent retry.out + before.due retry.ref ∧
        ∃ o, config.isThreaded o = true ∧ env.Refuses (.poolFlush o)) ∨ rules.reschedules before.2 ∧ before.1 = [] ∧
        after.occupied retry.parent retry.out = before.occupied retry.parent retry.out ∧
        (after.due retry.ref = before.due retry.ref ∨ after.due retry.ref = before.due retry.ref - 1 + 1 ∨
          after.due retry.ref = before.due retry.ref - 1 ∧ rules.refuses) := by
  have steady : after.occupied retry.parent retry.out = before.occupied retry.parent retry.out →
      after.due retry.ref = before.due retry.ref →
      after.occupied retry.parent retry.out + after.due retry.ref =
        before.occupied retry.parent retry.out + before.due retry.ref := by
    intro occupied due
    rw [occupied, due]
  have other : ∀ {t : TaskRef} {o : OutId} {name : Option RetryRef}, before.Names t o name →
      name ≠ some retry.ref → ¬(t = retry.parent ∧ o = retry.out) := by
    rintro t o name names different ⟨rfl, rfl⟩
    exact different (exclusive.named _ _ name names retry listed rfl rfl)
  cases move with
  | quiet quiet =>
    refine .inl (steady ?_ (Stage.due_perm quiet.requests fun _ => Iff.rfl))
    simp [Stage.occupied, quiet.flushes, quiet.pending]
  | phase => exact .inl (steady (occupied_setPhase _ _) (Stage.due_perm (.refl _) fun _ => Iff.rfl))
  | popped found => exact .inl (steady (occupied_popped found) (Stage.due_perm (.refl _) (by simp)))
  | @result f flush t life found slot =>
    have same := wellFormed.sound.result_task slot
    subst same
    exact .inl (steady (occupied_result found) (Stage.due_perm (.refl _) (by simp)))
  | @routeErased t o frames life | @routeLost t o outs frames life =>
    have apart := other (.inl ⟨mem_cons_self .., rfl⟩) nofun
    exact .inl (steady (by simp [Stage.occupied, Frame.occupies, apart]) (Stage.due_perm (.refl _) (by simp)))
  | @undoomed t o frames life =>
    have apart := other (.inr (.inr (.inl (mem_cons_self ..)))) nofun
    exact .inl (steady (by simp [Stage.occupied, Frame.occupies, apart]) (Stage.due_perm (.refl _) (by simp)))
  | @poolRefused t o name queued frames life _ threaded refused =>
    have due : Stage.due (whenSynchronous config o ++ frames, life.act (.flushFailed o t)) retry.ref =
        Stage.due (.attempt t o name queued :: frames, life) retry.ref := Stage.due_perm (.refl _) (by simp)
    refine .inr (.inl ⟨?_, _, threaded, refused⟩)
    rw [due]
    simp [Stage.occupied, countP_cons]
  | @doomed t o r frames life =>
    obtain ⟨later, kept, same⟩ := survives
    have different : retry.ref ≠ r := same ▸ (mem_retryDestroy.mp kept).2
    have apart := other (.inr (.inr (.inl (mem_cons_self ..)))) fun equal => different (Option.some.inj equal).symm
    refine .inl (steady ?_ (Stage.due_eraseP different rfl (by simp)))
    simp [Stage.occupied, Frame.occupies, apart]
  | @limitReached t o old life found =>
    obtain ⟨later, kept, same⟩ := survives
    have different : retry.ref ≠ old.ref := same ▸ (mem_retryDestroy.mp kept).2
    refine .inl (steady ?_ (Stage.due_eraseP different rfl (by simp)))
    simp [Stage.occupied, Frame.occupies]
  | @unschedulable t o r life =>
    have requests : ((life.retryDestroy r).release t).requests = life.requests.eraseP (·.data = r) := by
      rw [release_eq]
      rfl
    rw [release_eq] at survives
    obtain ⟨later, kept, same⟩ := survives
    have different : retry.ref ≠ r := same ▸ (mem_retryDestroy.mp kept).2
    have apart := other (.inr (.inr (.inr (.inl ⟨r, mem_singleton_self _, rfl⟩))))
      fun equal => different (Option.some.inj equal).symm
    refine .inl (steady ?_ (Stage.due_eraseP different requests (by simp)))
    rw [release_eq]
    simp [Stage.occupied, Frame.occupies, apart]
  | @abandoned t o r req life =>
    have requests : ((life.retryDestroy r).release t).requests = life.requests.eraseP (·.data = r) := by
      rw [release_eq]
      rfl
    rw [release_eq] at survives
    obtain ⟨later, kept, same⟩ := survives
    have different : retry.ref ≠ r := same ▸ (mem_retryDestroy.mp kept).2
    have apart := other (.inr (.inl ⟨false, mem_cons_self ..⟩))
      fun equal => different (Option.some.inj equal).symm
    refine .inl (steady ?_ (Stage.due_eraseP different requests (by simp)))
    rw [release_eq]
    simp [Stage.occupied, Frame.occupies, apart]
  | @finished t o life =>
    rw [release_eq] at survives
    obtain ⟨later, kept, same⟩ := survives
    have requests : ((life.retryClean t o).dismiss t |>.release t).requests = (life.retryClean t o).requests := by
      rw [release_eq]
      rfl
    have occupied : ¬(t = retry.parent ∧ o = retry.out) →
        Stage.occupied ([], (life.retryClean t o).dismiss t |>.release t) retry.parent retry.out =
          Stage.occupied ([.closing t o], life) retry.parent retry.out := by
      intro apart
      rw [release_eq, retryClean_eq]
      simp [Stage.occupied, Frame.occupies, apart]
    rcases retryClean_cases t o life with ⟨cleaned, missing⟩ | ⟨old, found, cleaned⟩
    · have apart : ¬(t = retry.parent ∧ o = retry.out) := fun equal =>
        findRetry_none missing retry listed ⟨equal.1.symm, equal.2.symm⟩
      have unchanged := requests.trans (congrArg Life.requests cleaned)
      refine .inl (steady (occupied apart) (Stage.due_perm ?_ (by simp)))
      rw [unchanged]
    · obtain ⟨oldListed, rfl, rfl⟩ := findRetry_some found
      simp only [cleaned] at kept
      have different : retry.ref ≠ old.ref := same ▸ (mem_retryDestroy.mp kept).2
      have apart : ¬(old.parent = retry.parent ∧ old.out = retry.out) := by
        intro equal
        cases exclusive.single retry listed old oldListed equal.1.symm equal.2.symm
        exact different rfl
      have erased := requests.trans (congrArg Life.requests cleaned)
      exact .inl (steady (occupied apart) (Stage.due_eraseP different erased (by simp)))
  | @scheduled t o r request life fresh data =>
    have due := @Stage.due_schedule [.unscheduled t o r] [] life (life.schedule request) retry.ref request rfl
      (by simp) (by simp)
    by_cases own : r = retry.ref
    · subst own
      obtain ⟨parent, out⟩ := (wellFormed.matched ⟨t, o, retry.ref⟩
        (Stage.mem_tokens.mpr (.inr ⟨_, mem_singleton_self _, rfl⟩))).2 retry listed rfl
      refine .inl ?_
      rw [due, if_pos data]
      simp [Stage.occupied, Frame.occupies, parent, out]
      omega
    · have apart := other (.inr (.inr (.inr (.inl ⟨r, mem_singleton_self _, rfl⟩))))
        fun equal => own (Option.some.inj equal)
      rw [data, if_neg own] at due
      exact .inl (steady (by simp [Stage.occupied, Frame.occupies, apart]) due)
  | @postponed t o r request frames life fresh data =>
    have due := @Stage.due_schedule (.attempt t o (some r) false :: frames) frames life (life.schedule request)
      retry.ref request rfl (fun req member => fresh ▸ (exclusive.spent req _ (mem_cons_of_mem _ member)).1)
      (by simp)
    by_cases own : r = retry.ref
    · subst own
      obtain ⟨parent, out⟩ := (wellFormed.matched ⟨t, o, retry.ref⟩
        (Stage.mem_tokens.mpr (.inr ⟨_, mem_cons_self .., rfl⟩))).2 retry listed rfl
      refine .inl ?_
      rw [due, if_pos data]
      simp [Stage.occupied, Frame.occupies, parent, out]
      omega
    · have apart := other (.inr (.inl ⟨false, mem_cons_self ..⟩)) fun equal => own (Option.some.inj equal)
      rw [data, if_neg own] at due
      exact .inl (steady (by simp [Stage.occupied, Frame.occupies, apart]) due)
  | @spent req r life =>
    refine .inl (steady (by simp [Stage.occupied, Frame.occupies]) ?_)
    simp only [Stage.due, requestDestroy, countP_filter]
    refine countP_congr fun request member => ?_
    have data := (exclusive.spent req r (mem_singleton_self _)).2 request member
    simp only [not_mem_nil, not_false_eq_true, decide_true, Bool.and_true, Bool.and_eq_true, decide_eq_true_eq,
      mem_singleton, Frame.spent.injEq, not_and]
    constructor
    · rintro ⟨own, different⟩
      exact ⟨own, fun same => absurd same different⟩
    · rintro ⟨own, different⟩
      exact ⟨own, fun same => different same (own.symm.trans (data same))⟩
  | @forgotten req r life missing =>
    refine .inl (steady (by simp [Stage.occupied, Frame.occupies]) (Stage.due_perm (.refl _) ?_))
    simp [missing retry listed]
  | @rescheduled old request life allowed oldListed fresh data =>
    refine .inr (.inr ⟨allowed, rfl, rfl, ?_⟩)
    by_cases own : old.ref = retry.ref
    · refine .inr (.inl ?_)
      have erased := countP_eraseP_self (fun request : SchedRequest => decide (request.data = old.ref)) life.requests
      simp [Stage.due, data, own] at erased ⊢
      exact erased
    · have erased := @countP_eraseP_other life.requests old.ref retry.ref (Ne.symm own)
      refine .inl ?_
      simp [Stage.due, data, own] at erased ⊢
      exact erased
  | @rescheduleRefused old life allowed oldListed refused =>
    refine .inr (.inr ⟨allowed, rfl, rfl, ?_⟩)
    by_cases own : old.ref = retry.ref
    · have erased := countP_eraseP_self (fun request : SchedRequest => decide (request.data = old.ref)) life.requests
      refine .inr (.inr ⟨?_, refused⟩)
      simp [Stage.due, own] at erased ⊢
      exact erased
    · refine .inl ?_
      have erased := @countP_eraseP_other life.requests old.ref retry.ref (Ne.symm own)
      simp [Stage.due] at erased ⊢
      exact erased
  | @run task life found isNew =>
    have live := (task?_some found).1
    have apart : task.ref ≠ retry.parent := by
      intro same
      have unmentioned := (wellFormed.sound.untouched task live isNew).1
      exact unmentioned (Stage.mem_mentioned.mpr (.inr (.inr (.inl ⟨retry, listed, same.symm⟩))))
    refine .inl (steady ?_ (Stage.due_perm (.refl _) (by simp)))
    simp only [Stage.occupied, countP_append]
    rw [countP_routeFrames _ (fun _ => by simp [Frame.occupies, apart])]
    simp [Frame.occupies]
  | @destroyed task life found unused =>
    rw [destroy_eq] at survives
    obtain ⟨later, kept, same⟩ := survives
    have absent : retry.ref ∉ life.retriesOf task.ref := by
      rw [← same]
      exact of_decide_eq_true (mem_filter.mp kept).2
    have requests := countP_foldl_eraseP_other absent life.requests
    refine .inl (steady ?_ ?_)
    · rw [destroy_eq]
      rfl
    · rw [destroy_eq]
      simpa [Stage.due] using requests
  | @fired request old life requested oldListed data =>
    refine .inl ?_
    by_cases own : old.ref = retry.ref
    · cases inj_on_of_nodup_map wellFormed.sound.retriesDistinct oldListed listed own
      have others := @countP_others SchedRequest Nat (fun other => decide (other.data = retry.ref)) _
        SchedRequest.ref life.requests wellFormed.sound.requestsDistinct request requested (decide_eq_true data)
      simp [Stage.occupied, Stage.due, Frame.occupies] at others ⊢
      omega
    · have apart : ¬(old.parent = retry.parent ∧ old.out = retry.out) := by
        intro equal
        cases exclusive.single old oldListed retry listed equal.1 equal.2
        exact own rfl
      refine steady ?_ (Stage.due_perm (.refl _) ?_)
      · simp [Stage.occupied, Frame.occupies, apart]
      · simp [Ne.symm own]
  | retriedAgain | retriedFirst =>
    exact .inl (steady (by simp [Stage.occupied, Frame.occupies]) (Stage.due_perm (.refl _) (by simp)))
  | _ =>
    refine .inl (steady ?_ (Stage.due_perm (.refl _) (by simp)))
    simp [Stage.occupied, Frame.occupies, countP_cons]
    try omega

section

variable (move : Move env config rules before after)
include move

theorem Move.request_origin {request : SchedRequest} (member : request ∈ after.2.requests) :
    request ∈ before.2.requests ∨ request.ref = before.2.nextRef ∧ after.2.retries = before.2.retries ∧
        ((∃ t o, .attempt t o (some request.data) false ∈ before.1 ∨ .unscheduled t o request.data ∈ before.1) ∨
          ∃ retry ∈ before.2.retries, retry.ref = request.data) := by
  cases move with
  | quiet quiet => exact .inl (quiet.requests.subset member)
  | destroyed =>
    rw [destroy_eq] at member
    exact .inl ((foldl_eraseP_sublist _ _).subset member)
  | doomed | limitReached | rescheduleRefused => exact .inl (mem_of_mem_eraseP member)
  | finished =>
    rw [release_eq] at member
    exact .inl (retryClean_requests_sublist.subset member)
  | unschedulable | abandoned =>
    rw [release_eq] at member
    exact .inl (mem_of_mem_eraseP member)
  | spent => exact .inl (mem_of_mem_filter member)
  | @scheduled t o r new life fresh data =>
    rcases mem_append.mp member with old | last
    · exact .inl old
    · cases mem_singleton.mp last
      rw [data]
      exact .inr ⟨fresh, rfl, .inl ⟨t, o, .inr (mem_singleton_self _)⟩⟩
  | @postponed t o r new frames life fresh data =>
    rcases mem_append.mp member with old | last
    · exact .inl old
    · cases mem_singleton.mp last
      rw [data]
      exact .inr ⟨fresh, rfl, .inl ⟨t, o, .inl (mem_cons_self ..)⟩⟩
  | @rescheduled retry new life _ listed fresh data =>
    rcases mem_append.mp member with old | last
    · exact .inl (mem_of_mem_eraseP old)
    · cases mem_singleton.mp last
      exact .inr ⟨fresh, rfl, .inr ⟨retry, listed, data.symm⟩⟩
  | _ => exact .inl member

theorem Move.entry_origin {entry : TaskEnqueued} (member : entry ∈ after.2.pending) :
    entry ∈ before.2.pending ∨ .attempt entry.task entry.out entry.retry false ∈ before.1 := by
  cases move with
  | quiet quiet => exact .inl (quiet.pending ▸ member)
  | destroyed =>
    rw [destroy_eq] at member
    exact .inl member
  | enqueued =>
    rcases mem_append.mp member with old | last
    · exact .inl old
    · cases mem_singleton.mp last
      exact .inr (mem_cons_self ..)
  | popped => exact .inl (mem_of_mem_eraseP member)
  | finished =>
    rw [release_eq, retryClean_eq] at member
    exact .inl member
  | unschedulable | abandoned =>
    rw [release_eq] at member
    exact .inl member
  | _ => exact .inl member

theorem Move.unscheduled_origin {r : RetryRef} (member : .unscheduled t o r ∈ after.1) : .unscheduled t o r ∈ before.1 ∨
      before.1 = [.result t o] ∧ ∃ live ∈ after.2.retries, live.ref = r ∧ live.parent = t ∧ live.out = o := by
  cases move with
  | quiet => exact .inl member
  | @retriedAgain t' o' retry life found =>
    obtain ⟨listed, parent, out⟩ := findRetry_some found
    cases mem_singleton.mp member
    refine .inr ⟨rfl, { retry with attempts := retry.attempts + 1 }, ?_, rfl, parent, out⟩
    exact mem_replace.mpr ⟨retry, listed, if_pos rfl⟩
  | retriedFirst =>
    cases mem_singleton.mp member
    exact .inr ⟨rfl, _, mem_append_right _ (mem_singleton_self _), rfl, rfl, rfl⟩
  | created | leaked | destroyed | routeDropped | dropCounted | phase | erased | run | result | delivered | dropped
  | limitReached | finished | scheduled | unschedulable | fired | abandoned | spent | forgotten | rescheduled
  | rescheduleRefused => simp at member
  | _ => exact .inl (by simpa using member)

end

theorem Move.names_origin (sound : Sound before) (move : Move env config rules before after)
    {name : Option RetryRef} (names : after.Names t o name) :
    before.Names t o name ∨ (∃ task ∈ before.2.tasks, task.ref = t ∧ task.status = .new) ∨
      (∃ live ∈ before.2.retries, live.parent = t ∧ live.out = o ∧ name = some live.ref) ∨
      before.1 = [.result t o] ∧ ∃ live ∈ after.2.retries, live.parent = t ∧ live.out = o ∧ name = some live.ref := by
  rcases names with ⟨member, rfl⟩ | ⟨queued, member⟩ | member | ⟨r, member, rfl⟩ | ⟨entry, waiting, rfl, rfl, rfl⟩
  · rcases move.frame_origin sound member with old | new
    · exact .inl (.inl ⟨old, rfl⟩)
    · exact .inr (.inl new)
  · rcases move.frame_origin sound member with old | source
    · exact .inl (.inr (.inl ⟨queued, old⟩))
    · cases queued with
      | true =>
        have entry : ∃ entry ∈ before.2.pending, entry.task = t ∧ entry.out = o ∧ entry.retry = name := by
          cases name <;> exact source
        exact .inl (.inr (.inr (.inr (.inr entry))))
      | false =>
        cases name with
        | none => exact .inl (.inl ⟨source, rfl⟩)
        | some r =>
          obtain ⟨-, live, listed, rfl, parent, out⟩ := source
          exact .inr (.inr (.inl ⟨live, listed, parent, out, rfl⟩))
  · rcases move.frame_origin sound member with old | source
    · exact .inl (.inr (.inr (.inl old)))
    · exact .inl (.inr (.inl source))
  · rcases move.unscheduled_origin member with old | ⟨top, live, listed, rfl, parent, out⟩
    · exact .inl (.inr (.inr (.inr (.inl ⟨r, old, rfl⟩))))
    · exact .inr (.inr (.inr ⟨top, live, listed, parent, out, rfl⟩))
  · rcases move.entry_origin waiting with old | attempt
    · exact .inl (.inr (.inr (.inr (.inr ⟨entry, old, rfl, rfl, rfl⟩))))
    · exact .inl (.inr (.inl ⟨false, attempt⟩))

namespace Exclusive

variable (wellFormed : WellFormed before) (exclusive : Exclusive before)
  (move : Move env config rules before after)

include wellFormed exclusive move

private theorem step_lone (t : TaskRef) (o : OutId) : after.occupied t o ≤ 1 := by
  rcases move.occupied_le wellFormed.sound t o with fewer | ⟨task, live, rfl, isNew, grown⟩ |
    ⟨request, requested, retry, listed, data, idle, rfl, rfl, grown⟩
  · exact Nat.le_trans fewer (exclusive.lone t o)
  · have routes := nodup_iff_count_le_one.mp (exclusive.routes task live) o
    rw [grown, occupied_new wellFormed.sound live isNew]
    omega
  · have placed := exclusive.placed retry listed
    have due : 0 < before.due retry.ref := countP_pos_iff.mpr ⟨request, requested, by simp [data, idle]⟩
    omega

private theorem step_owned : ∀ request ∈ after.2.requests, ∃ retry ∈ after.2.retries, retry.ref = request.data := by
  intro request member
  have kept : ∀ retry ∈ before.2.retries, retry.ref = request.data →
      ∃ later ∈ after.2.retries, later.ref = request.data := by
    intro retry listed same
    rcases move.retry_fate wellFormed exclusive listed with ⟨later, live, ref, -⟩ | ⟨none, -⟩
    · exact ⟨later, live, ref.trans same⟩
    · exact absurd same.symm (none request member)
  rcases move.request_origin member with old | ⟨-, retries, ⟨t, o, framed⟩ | ⟨retry, listed, same⟩⟩
  · obtain ⟨retry, listed, same⟩ := exclusive.owned request old
    exact kept retry listed same
  · obtain ⟨retry, listed, same⟩ := exclusive.alive t o request.data framed
    exact kept retry listed same
  · exact kept retry listed same

private theorem step_spent (req : Nat) (r : RetryRef) (framed : .spent req r ∈ after.1) :
    req < after.2.nextRef ∧ ∀ request ∈ after.2.requests, request.ref = req → request.data = r := by
  have known : req < before.2.nextRef ∧ ∀ request ∈ before.2.requests, request.ref = req → request.data = r := by
    rcases move.frame_origin wellFormed.sound framed with old | ⟨fired, listed, rfl, rfl⟩
    · exact exclusive.spent req r old
    · refine ⟨wellFormed.sound.requestsAllocated fired listed, fun request member same => ?_⟩
      rw [inj_on_of_nodup_map wellFormed.sound.requestsDistinct member listed same]
  refine ⟨Nat.lt_of_lt_of_le known.1 move.nextRef_le, fun request member same => ?_⟩
  rcases move.request_origin member with old | ⟨fresh, -⟩
  · exact known.2 request old same
  · omega

private theorem step_alive (t : TaskRef) (o : OutId) (r : RetryRef)
    (framed : .attempt t o (some r) false ∈ after.1 ∨ .unscheduled t o r ∈ after.1) :
    ∃ live ∈ after.2.retries, live.ref = r := by
  have kept : ∀ retry ∈ before.2.retries, retry.ref = r → ∃ later ∈ after.2.retries, later.ref = r := by
    rintro retry listed rfl
    rcases move.retry_fate wellFormed exclusive listed with ⟨later, live, ref, -⟩ | ⟨-, none⟩
    · exact ⟨later, live, ref⟩
    · rcases framed with attempt | unscheduled
      · exact absurd attempt (none t o).1
      · exact absurd unscheduled (none t o).2
  have earlier : .attempt t o (some r) false ∈ before.1 ∨ .unscheduled t o r ∈ before.1 →
      ∃ later ∈ after.2.retries, later.ref = r := by
    intro old
    obtain ⟨retry, listed, same⟩ := exclusive.alive t o r old
    exact kept retry listed same
  rcases framed with attempt | unscheduled
  · rcases move.frame_origin wellFormed.sound attempt with old | ⟨-, retry, listed, same, -⟩
    · exact earlier (.inl old)
    · exact kept retry listed same
  · rcases move.unscheduled_origin unscheduled with old | ⟨-, live, listed, same, -⟩
    · exact earlier (.inr old)
    · exact ⟨live, listed, same⟩

private theorem step_single : ∀ left ∈ after.2.retries, ∀ right ∈ after.2.retries,
    left.parent = right.parent → left.out = right.out → left = right := by
  intro left leftListed right rightListed parent out
  have distinct := (wellFormed.sound.step move).retriesDistinct
  refine inj_on_of_nodup_map distinct leftListed rightListed ?_
  rcases move.retry_origin leftListed with ⟨oldLeft, wasLeft, leftRef, leftParent, leftOut⟩ | ⟨leftFresh, -, -, leftNone⟩
  · rcases move.retry_origin rightListed with
      ⟨oldRight, wasRight, rightRef, rightParent, rightOut⟩ | ⟨-, -, -, rightNone⟩
    · have same := exclusive.single oldLeft wasLeft oldRight wasRight
        (by rw [leftParent, rightParent, parent]) (by rw [leftOut, rightOut, out])
      rw [← leftRef, ← rightRef, same]
    · exact absurd ⟨leftParent.trans parent, leftOut.trans out⟩ (rightNone oldLeft wasLeft)
  · rcases move.retry_origin rightListed with ⟨oldRight, wasRight, -, rightParent, rightOut⟩ | ⟨rightFresh, -⟩
    · exact absurd ⟨rightParent.trans parent.symm, rightOut.trans out.symm⟩ (leftNone oldRight wasRight)
    · exact leftFresh.trans rightFresh.symm

private theorem step_named (t : TaskRef) (o : OutId) (name : Option RetryRef) (names : after.Names t o name) :
    ∀ live ∈ after.2.retries, live.parent = t → live.out = o → name = some live.ref := by
  rintro live listed rfl rfl
  have unmentioned : ∀ task ∈ before.2.tasks, task.ref = live.parent → task.status = .new →
      live.parent ∉ before.mentioned := by
    intro task taskListed same isNew
    rw [← same]
    exact (wellFormed.sound.untouched task taskListed isNew).1
  rcases move.retry_origin listed with ⟨old, earlier, ref, parent, out⟩ | ⟨fresh, top, -, none⟩
  · rcases move.names_origin wellFormed.sound names with before' | ⟨task, taskListed, same, isNew⟩ |
      ⟨other, otherListed, otherParent, otherOut, rfl⟩ | ⟨-, other, otherListed, otherParent, otherOut, rfl⟩
    · rw [exclusive.named _ _ name before' old earlier parent out, ref]
    · refine absurd ?_ (unmentioned task taskListed same isNew)
      exact Stage.mem_mentioned.mpr (.inr (.inr (.inl ⟨old, earlier, parent⟩)))
    · rw [exclusive.single other otherListed old earlier (otherParent.trans parent.symm)
        (otherOut.trans out.symm), ref]
    · rw [exclusive.step_single wellFormed move other otherListed live listed otherParent otherOut]
  · rcases move.names_origin wellFormed.sound names with old | ⟨task, taskListed, same, isNew⟩ |
      ⟨other, otherListed, otherParent, otherOut, -⟩ | ⟨-, other, otherListed, otherParent, otherOut, rfl⟩
    · -- the route already has a result in hand, so nothing else is under way for it
      rcases old with ⟨framed, -⟩ | ⟨queued, framed⟩ | framed | ⟨r, framed, -⟩ | ⟨entry, waiting, task, out, -⟩
      · simp [top] at framed
      · simp [top] at framed
      · simp [top] at framed
      · simp [top] at framed
      · have lone := exclusive.lone live.parent live.out
        have waits : 0 < before.2.pending.countP
            (fun entry => decide (entry.task = live.parent) && decide (entry.out = live.out)) :=
          countP_pos_iff.mpr ⟨entry, waiting, by simp [task, out]⟩
        rw [Stage.occupied, top, countP_cons_of_pos (by simp [Frame.occupies])] at lone
        omega
    · refine absurd ?_ (unmentioned task taskListed same isNew)
      refine Stage.mem_mentioned.mpr (.inr (.inr (.inr ⟨.result live.parent live.out, ?_, rfl⟩)))
      rw [top]
      exact mem_singleton_self _
    · exact absurd ⟨otherParent, otherOut⟩ (none other otherListed)
    · rw [exclusive.step_single wellFormed move other otherListed live listed otherParent otherOut]

private theorem step_placed (apart : ∀ life, rules.reschedules life → ∀ retry ∈ life.retries,
      Stage.occupied ([], life) retry.parent retry.out = 0) :
    ∀ retry ∈ after.2.retries, after.occupied retry.parent retry.out + after.due retry.ref ≤ 1 := by
  intro retry listed
  rcases move.retry_origin listed with ⟨old, earlier, ref, parent, out⟩ | ⟨fresh, -⟩
  · have placed := exclusive.placed old earlier
    have weight := move.weight wellFormed exclusive earlier ⟨retry, listed, ref.symm⟩
    rw [ref, parent, out] at placed weight
    rcases weight with same | ⟨fewer, -⟩ | ⟨allowed, idle, occupied, due⟩
    · omega
    · omega
    · obtain ⟨frames, life⟩ := before
      subst idle
      have free := apart life allowed old earlier
      rw [parent, out] at free
      omega
  · have lone := exclusive.step_lone wellFormed move retry.parent retry.out
    have due : after.due retry.ref = 0 := by
      rw [Stage.due, countP_eq_zero]
      intro request member selected
      obtain ⟨data, -⟩ : request.data = retry.ref ∧ _ := by
        simpa using selected
      rcases move.request_origin member with old | ⟨-, retries, -⟩
      · obtain ⟨owner, owned, same⟩ := exclusive.owned request old
        have allocated := wellFormed.sound.retriesAllocated owner owned
        rw [same, data, fresh] at allocated
        exact Nat.lt_irrefl _ allocated
      · have allocated := wellFormed.sound.retriesAllocated retry (retries ▸ listed)
        rw [fresh] at allocated
        exact Nat.lt_irrefl _ allocated
    omega

theorem step (creates : ∀ outs, rules.creates outs → outs.Nodup)
    (apart : ∀ life, rules.reschedules life → ∀ retry ∈ life.retries,
      Stage.occupied ([], life) retry.parent retry.out = 0) : Exclusive after where
  routes := by
    intro task member
    rcases move.task_origin wellFormed.sound member with ⟨old, live, follows⟩ | ⟨-, created⟩
    · exact follows.outs.nodup (exclusive.routes old live)
    · exact creates _ created
  lone := exclusive.step_lone wellFormed move
  single := exclusive.step_single wellFormed move
  owned := exclusive.step_owned wellFormed move
  spent := exclusive.step_spent wellFormed move
  alive := exclusive.step_alive wellFormed move
  named := exclusive.step_named wellFormed move
  placed := exclusive.step_placed wellFormed move apart

end Exclusive

section Runs

variable {onDisk : OnDisk} {engine : Engine}

/-- The first stop finds no retry whose flush is under way, was skipped by a worker or
waits in a queue. -/
def StopsIdle (engine : Engine) (event : Event) : Prop :=
  event = .stop → engine.graceCount = 0 → ∀ retry ∈ engine.retries,
    (∀ flush ∈ engine.flushes, ¬(flush.task = retry.parent ∧ flush.out = retry.out)) ∧
      ∀ entry ∈ engine.pending, entry.retry ≠ some retry.ref

theorem StopsIdle.free {event : Event} (idle : StopsIdle engine event) (exclusive : Exclusive ([], engine.life))
    {life : Life} (allowed : (engineRules env config engine event).reschedules life) :
    ∀ retry ∈ life.retries, Stage.occupied ([], life) retry.parent retry.out = 0 := by
  obtain ⟨stops, first, retries, pending, flushes⟩ := allowed
  intro retry listed
  rw [retries] at listed
  obtain ⟨noFlush, noEntry⟩ := idle stops first retry listed
  have noFlushes : engine.flushes.countP
      (fun flush => decide (flush.task = retry.parent) && decide (flush.out = retry.out)) = 0 := by
    simpa using noFlush
  have noEntries : engine.pending.countP
      (fun entry => decide (entry.task = retry.parent) && decide (entry.out = retry.out)) = 0 := by
    rw [countP_eq_zero]
    intro entry waiting same
    simp only [Bool.and_eq_true, decide_eq_true_eq] at same
    refine noEntry entry waiting ?_
    exact exclusive.named _ _ _ (.inr (.inr (.inr (.inr ⟨entry, waiting, same.1, same.2, rfl⟩)))) retry listed rfl rfl
  simp [Stage.occupied, pending, flushes, noFlushes, noEntries]

theorem creates_nodup {event : Event} {outs : List OutId} (creates : (engineRules env config engine event).creates outs) :
    outs.Nodup := by
  obtain ⟨i, -, routing, -, sublist⟩ := creates
  exact sublist.nodup (taskOutputs_nodup routing)

theorem exclusive_started : Exclusive ([], (started onDisk).life) := by
  constructor
  · intro task member
    cases member
  · intro t o
    exact Nat.zero_le 1
  · intro left member
    cases member
  · intro request member
    cases member
  · intro req r member
    cases member
  · rintro t o r (member | member) <;> cases member
  · intro t o name _ live member
    cases member
  · intro retry member
    cases member

end Runs

end FluentBit
