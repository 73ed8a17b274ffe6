import FluentBit.Engine.StepSimulation

/-! The stacks of frames that handlers leave between moves, and the retries that
frames and queue entries point to. -/

set_option autoImplicit false

namespace FluentBit

open List Life

inductive Frame.Base : List Frame → Prop where
  | idle : Base []
  | starting (t : TaskRef) (outs rest : List OutId) : Base (rest.map (.route t) ++ [.starting t outs])
  | result (t : TaskRef) (o : OutId) : Base [.result t o]
  | closing (t : TaskRef) (o : OutId) : Base [.closing t o]
  | unscheduled (t : TaskRef) (o : OutId) (r : RetryRef) : Base [.unscheduled t o r]
  | spent (req : Nat) (r : RetryRef) : Base [.spent req r]

inductive Frame.Owed : List Frame → Prop where
  | base {frames} : Base frames → Owed frames
  | doomed {t o retry frames} : Owed frames → Owed (.doomed t o retry :: frames)
  | advance {o frames} : Owed frames → Owed (.advance o :: frames)

inductive Frame.Shaped : List Frame → Prop where
  | owed {frames} : Owed frames → Shaped frames
  | attempt {t o retry queued frames} : Owed frames → Shaped (.attempt t o retry queued :: frames)
  | turn {o frames} : Owed frames → Shaped (.turn o :: frames)

variable {frames : List Frame} {o : OutId} {t : TaskRef} {retry : Option RetryRef}

namespace Frame

variable {queued : Bool} {frame : Frame}

def isMoving : Frame → Bool
  | .attempt .. | .turn _ | .doomed .. | .advance _ => true
  | _ => false

theorem Base.resting (base : Base (frame :: frames)) : frame.isMoving = false := by
  generalize shape : frame :: frames = all at base
  cases base with
  | idle => cases shape
  | starting t outs rest => cases rest <;> cases shape <;> rfl
  | _ =>
    cases shape
    rfl

theorem owed_of_attempt (shaped : Shaped (.attempt t o retry queued :: frames)) : Owed frames := by
  cases shaped with
  | attempt owed => exact owed
  | owed owed =>
    cases owed with
    | base base => cases base.resting

theorem owed_of_turn (shaped : Shaped (.turn o :: frames)) : Owed frames := by
  cases shaped with
  | turn owed => exact owed
  | owed owed =>
    cases owed with
    | base base => cases base.resting

private theorem owed_of_doomed (shaped : Shaped (.doomed t o retry :: frames)) : Owed frames := by
  cases shaped with
  | owed owed =>
    cases owed with
    | doomed owed => exact owed
    | base base => cases base.resting

private theorem owed_of_advance (shaped : Shaped (.advance o :: frames)) : Owed frames := by
  cases shaped with
  | owed owed =>
    cases owed with
    | advance owed => exact owed
    | base base => cases base.resting

theorem base_of_route (shaped : Shaped (.route t o :: frames)) :
    ∃ outs rest : List OutId, frames = rest.map (.route t) ++ [.starting t outs] := by
  cases shaped with
  | owed owed =>
    cases owed with
    | base base =>
      generalize shape : Frame.route t o :: frames = all at base
      cases base with
      | starting t' outs rest =>
        cases rest with
        | nil => cases shape
        | cons first rest =>
          cases shape
          exact ⟨outs, rest, rfl⟩
      | _ => cases shape

theorem nil_of_starting {outs : List OutId} (shaped : Shaped (.starting t outs :: frames)) : frames = [] := by
  cases shaped with
  | owed owed =>
    cases owed with
    | base base =>
      generalize shape : Frame.starting t outs :: frames = all at base
      cases base with
      | starting t' outs' rest =>
        cases rest with
        | nil =>
          cases shape
          rfl
        | cons first rest => cases shape
      | _ => cases shape

private theorem owed_append {work frames : List Frame} (owed : Owed frames)
    (works : ∀ frame ∈ work, (∃ t o retry, frame = .doomed t o retry) ∨ ∃ o, frame = .advance o) :
    Owed (work ++ frames) := by
  induction work with
  | nil => exact owed
  | cons frame rest ih =>
    have later := ih fun other member => works other (mem_cons_of_mem _ member)
    rcases works frame (mem_cons_self ..) with ⟨t, o, retry, rfl⟩ | ⟨o, rfl⟩
    · exact .doomed later
    · exact .advance later

theorem mem_whenSynchronous {config : Config} (member : frame ∈ whenSynchronous config o) : frame = .advance o := by
  unfold whenSynchronous at member
  split at member
  · exact mem_singleton.mp member
  · cases member

theorem mem_whenIdle {life : Life} (member : frame ∈ whenIdle life o) : frame = .turn o := by
  unfold whenIdle at member
  split at member
  · exact mem_singleton.mp member
  · cases member

private theorem mem_afterFailure (member : frame ∈ afterFailure queued t o retry) :
    frame = .doomed t o retry ∨ frame = .advance o := by
  unfold afterFailure at member
  rcases mem_cons.mp member with first | later
  · exact .inl first
  · split at later
    · exact .inr (mem_singleton.mp later)
    · cases later

end Frame

variable {env : Env} {config : Config} {rules : Rules} {before after : Stage}

theorem Move.shaped (move : Move env config rules before after) (shaped : Frame.Shaped before.1) :
    Frame.Shaped after.1 := by
  have idle : Frame.Shaped [] := .owed (.base .idle)
  cases move with
  | quiet => exact shaped
  | @run task =>
    have started := Frame.Base.starting task.ref (task.routes.map (·.out)) (task.routes.map (·.out))
    rw [map_map] at started
    exact .owed (.base started)
  | routeErased | routeLost =>
    obtain ⟨outs, rest, rfl⟩ := Frame.base_of_route shaped
    exact .owed (.base (.starting _ outs rest))
  | routeOpened =>
    obtain ⟨outs, rest, rfl⟩ := Frame.base_of_route shaped
    exact .attempt (.base (.starting _ outs rest))
  | begun =>
    rw [Frame.nil_of_starting shaped]
    exact idle
  | flushed => exact .owed (Frame.owed_of_attempt shaped)
  | poolRefused =>
    refine .owed (Frame.owed_append (Frame.owed_of_attempt shaped) fun frame member => ?_)
    exact .inr ⟨_, Frame.mem_whenSynchronous member⟩
  | createRefused =>
    refine .owed (Frame.owed_append (Frame.owed_of_attempt shaped) fun frame member => ?_)
    rcases Frame.mem_afterFailure member with doomed | advance
    · exact .inl ⟨_, _, _, doomed⟩
    · exact .inr ⟨_, advance⟩
  | pipeRefused =>
    refine .owed (Frame.owed_append (Frame.owed_of_attempt shaped) fun frame member => ?_)
    rcases mem_append.mp member with advance | failed
    · exact .inr ⟨_, Frame.mem_whenSynchronous advance⟩
    · rcases Frame.mem_afterFailure failed with doomed | advance
      · exact .inl ⟨_, _, _, doomed⟩
      · exact .inr ⟨_, advance⟩
  | doomed | undoomed => exact .owed (Frame.owed_of_doomed shaped)
  | enqueued =>
    have owed := Frame.owed_of_attempt shaped
    unfold whenIdle
    split
    · exact .turn owed
    · exact .owed owed
  | enqueueRefused | unreadable => exact .owed (.doomed (Frame.owed_of_attempt shaped))
  | popped => exact .attempt (Frame.owed_of_turn shaped)
  | exhausted => exact .owed (Frame.owed_of_turn shaped)
  | retired => exact .turn (Frame.owed_of_advance shaped)
  | result =>
    refine .owed (Frame.owed_append (.base (.result _ _)) fun frame member => ?_)
    exact .inr ⟨_, Frame.mem_whenSynchronous member⟩
  | delivered | dropped | limitReached => exact .owed (.base (.closing _ _))
  | retriedAgain | retriedFirst => exact .owed (.base (.unscheduled _ _ _))
  | fired => exact .attempt (.base (.spent _ _))
  | postponed => exact .owed (Frame.owed_of_attempt shaped)
  | abandoned => exact .owed (.base (.spent _ _))
  | _ => exact idle

theorem Frame.Shaped.spent_unique (shaped : Shaped frames) {req req' : Nat} {r r' : RetryRef}
    (left : .spent req r ∈ frames) (right : .spent req' r' ∈ frames) : req = req' := by
  have owed : ∀ {frames : List Frame}, Owed frames → .spent req r ∈ frames → .spent req' r' ∈ frames → req = req' := by
    intro frames owed
    induction owed with
    | base base =>
      intro left right
      cases base with
      | starting => simp at left
      | spent =>
        cases mem_singleton.mp left
        cases mem_singleton.mp right
        rfl
      | _ => simp at left
    | doomed _ ih | advance _ ih => exact fun left right => ih (by simpa using left) (by simpa using right)
  cases shaped with
  | owed inner => exact owed inner left right
  | attempt inner | turn inner => exact owed inner (by simpa using left) (by simpa using right)

def Stage.Yields (stage : Stage) : Frame → Prop
  | .starting t outs => ∃ task ∈ stage.2.tasks, task.ref = t ∧ outs = task.routes.map (·.out)
  | .route t _ => ∃ task ∈ stage.2.tasks, task.ref = t ∧ task.status = .new
  | .doomed t o retry => ∃ queued, .attempt t o retry queued ∈ stage.1
  | .result t o => ∃ flush ∈ stage.2.flushes, flush.task = t ∧ flush.out = o
  | .closing t o | .unscheduled t o _ => .result t o ∈ stage.1
  | .attempt t o none false => .route t o ∈ stage.1
  | .attempt t o retry true => ∃ entry ∈ stage.2.pending, entry.task = t ∧ entry.out = o ∧ entry.retry = retry
  | .attempt t o (some r) false =>
    stage.1 = [] ∧ ∃ retry ∈ stage.2.retries, retry.ref = r ∧ retry.parent = t ∧ retry.out = o
  | .spent req r => ∃ request ∈ stage.2.requests, request.ref = req ∧ request.data = r
  | .advance _ | .turn _ => True

theorem Move.frame_origin (sound : Sound before) (move : Move env config rules before after) {frame : Frame}
    (member : frame ∈ after.1) : frame ∈ before.1 ∨ before.Yields frame := by
  have failed : ∀ {queued queued' : Bool} {t : TaskRef} {o : OutId} {retry : Option RetryRef},
      frame ∈ afterFailure queued' t o retry → .attempt t o retry queued ∈ before.1 → before.Yields frame := by
    intro queued queued' t o retry pushed attempt
    rcases Frame.mem_afterFailure pushed with rfl | rfl
    · exact ⟨queued, attempt⟩
    · trivial
  have advanced : ∀ {o : OutId}, frame ∈ whenSynchronous config o → before.Yields frame := by
    intro o pushed
    rw [Frame.mem_whenSynchronous pushed]
    trivial
  cases move with
  | quiet => exact .inl member
  | @run task life found isNew =>
    simp only [mem_append, mem_map, mem_singleton] at member
    rcases member with ⟨route, -, rfl⟩ | rfl
    · exact .inr ⟨task, (task?_some found).1, rfl, isNew⟩
    · exact .inr ⟨task, (task?_some found).1, rfl, rfl⟩
  | routeErased | routeLost | begun | flushed | doomed | undoomed | exhausted | postponed | abandoned =>
    exact .inl (mem_cons_of_mem _ member)
  | routeOpened =>
    rcases mem_cons.mp member with rfl | later
    · exact .inr (mem_cons_self ..)
    · exact .inl (mem_cons_of_mem _ later)
  | poolRefused =>
    rcases mem_append.mp member with advance | later
    · exact .inr (advanced advance)
    · exact .inl (mem_cons_of_mem _ later)
  | createRefused =>
    rcases mem_append.mp member with doomed | later
    · exact .inr (failed doomed (mem_cons_self ..))
    · exact .inl (mem_cons_of_mem _ later)
  | pipeRefused =>
    simp only [append_assoc, mem_append] at member
    rcases member with advance | doomed | later
    · exact .inr (advanced advance)
    · exact .inr (failed doomed (mem_cons_self ..))
    · exact .inl (mem_cons_of_mem _ later)
  | enqueued =>
    rcases mem_append.mp member with turn | later
    · rw [Frame.mem_whenIdle turn]
      exact .inr trivial
    · exact .inl (mem_cons_of_mem _ later)
  | enqueueRefused | unreadable =>
    rcases mem_cons.mp member with rfl | later
    · exact .inr ⟨_, mem_cons_self ..⟩
    · exact .inl (mem_cons_of_mem _ later)
  | @popped o entry frames life found =>
    rcases mem_cons.mp member with rfl | later
    · have out : entry.out = o := by simpa using List.find?_some found
      have source : Stage.Yields (.turn o :: frames, life) (.attempt entry.task o entry.retry true) := by
        cases points : entry.retry <;> exact ⟨entry, mem_of_find?_eq_some found, rfl, out, points⟩
      exact .inr source
    · exact .inl (mem_cons_of_mem _ later)
  | retired =>
    rcases mem_cons.mp member with rfl | later
    · exact .inr trivial
    · exact .inl (mem_cons_of_mem _ later)
  | @result f flush t life found slot =>
    rcases mem_append.mp member with advance | last
    · exact .inr (advanced advance)
    · rw [mem_singleton.mp last]
      exact .inr ⟨flush, mem_of_find?_eq_some found, (sound.result_task slot).symm, rfl⟩
  | delivered | dropped | limitReached | retriedAgain | retriedFirst =>
    rw [mem_singleton.mp member]
    exact .inr (mem_singleton_self _)
  | fired requested listed data =>
    simp only [mem_cons, not_mem_nil, or_false] at member
    rcases member with rfl | rfl
    · exact .inr ⟨rfl, _, listed, rfl, rfl, rfl⟩
    · exact .inr ⟨_, requested, rfl, data⟩
  | _ => cases member

structure Token where
  task : TaskRef
  out : OutId
  retry : RetryRef

def TaskEnqueued.token? (entry : TaskEnqueued) : Option Token := entry.retry.map fun r => ⟨entry.task, entry.out, r⟩

def Frame.token? : Frame → Option Token
  | .attempt t o retry _ | .doomed t o retry => retry.map fun r => ⟨t, o, r⟩
  | .unscheduled t o r => some ⟨t, o, r⟩
  | _ => none

def Stage.tokens (stage : Stage) : List Token :=
  stage.2.pending.filterMap TaskEnqueued.token? ++ stage.1.filterMap Frame.token?

def Matched (stage : Stage) : Prop :=
  ∀ token ∈ stage.tokens, token.retry < stage.2.nextRef ∧
    ∀ retry ∈ stage.2.retries, retry.ref = token.retry → retry.parent = token.task ∧ retry.out = token.out

variable {token : Token}

theorem Stage.mem_tokens {stage : Stage} :
    token ∈ stage.tokens ↔ (∃ entry ∈ stage.2.pending, entry.token? = some token) ∨
      ∃ frame ∈ stage.1, frame.token? = some token := by
  simp [Stage.tokens]

private theorem tokens_of_frames {frames frames' : List Frame} {life life' : Life}
    (pending : ∀ entry ∈ life'.pending, entry ∈ life.pending) (framed : ∀ frame ∈ frames', frame.token? = some token →
      ∃ old ∈ frames, old.token? = some token) (member : token ∈ Stage.tokens (frames', life')) :
    token ∈ Stage.tokens (frames, life) := by
  rcases Stage.mem_tokens.mp member with ⟨entry, listed, names⟩ | ⟨frame, listed, names⟩
  · exact Stage.mem_tokens.mpr (.inl ⟨entry, pending entry listed, names⟩)
  · exact Stage.mem_tokens.mpr (.inr (framed frame listed names))

theorem Move.tokens (move : Move env config rules before after) (member : token ∈ after.tokens) :
    token ∈ before.tokens ∨ ∃ retry ∈ after.2.retries, token = ⟨retry.parent, retry.out, retry.ref⟩ := by
  have popped : ∀ {frame : Frame} {frames : List Frame} {life life' : Life},
      (∀ entry ∈ life'.pending, entry ∈ life.pending) → token ∈ Stage.tokens (frames, life') →
      token ∈ Stage.tokens (frame :: frames, life) := fun pending member =>
    tokens_of_frames pending (fun other listed names => ⟨other, mem_cons_of_mem _ listed, names⟩) member
  cases move with
  | quiet quiet =>
    refine .inl (tokens_of_frames ?_ (fun frame listed names => ⟨frame, listed, names⟩) member)
    rw [quiet.pending]
    exact fun _ listed => listed
  | destroyed =>
    rw [destroy_eq] at member
    exact .inl member
  | created | leaked | routeDropped | dropCounted | phase | erased | rescheduled | rescheduleRefused =>
    exact .inl member
  | run =>
    refine .inl (tokens_of_frames (fun _ listed => listed) (fun frame listed names => ?_) member)
    simp only [mem_append, mem_map, mem_singleton] at listed
    rcases listed with ⟨route, -, rfl⟩ | rfl
    · cases names
    · cases names
  | routeErased | routeLost | begun | flushed | doomed | undoomed | exhausted | postponed =>
    exact .inl (popped (fun _ listed => listed) member)
  | routeOpened | retired =>
    refine .inl (tokens_of_frames (fun _ listed => listed) (fun frame listed names => ?_) member)
    rcases mem_cons.mp listed with rfl | later
    · cases names
    · exact ⟨frame, mem_cons_of_mem _ later, names⟩
  | poolRefused =>
    refine .inl (tokens_of_frames (fun _ listed => listed) (fun frame listed names => ?_) member)
    rcases mem_append.mp listed with advance | later
    · rw [Frame.mem_whenSynchronous advance] at names
      cases names
    · exact ⟨frame, mem_cons_of_mem _ later, names⟩
  | createRefused =>
    refine .inl (tokens_of_frames (fun _ listed => listed) (fun frame listed names => ?_) member)
    rcases mem_append.mp listed with failed | later
    · rcases Frame.mem_afterFailure failed with rfl | rfl
      · exact ⟨_, mem_cons_self .., names⟩
      · cases names
    · exact ⟨frame, mem_cons_of_mem _ later, names⟩
  | pipeRefused =>
    refine .inl (tokens_of_frames (fun _ listed => listed) (fun frame listed names => ?_) member)
    simp only [append_assoc, mem_append] at listed
    rcases listed with advance | failed | later
    · rw [Frame.mem_whenSynchronous advance] at names
      cases names
    · rcases Frame.mem_afterFailure failed with rfl | rfl
      · exact ⟨_, mem_cons_self .., names⟩
      · cases names
    · exact ⟨frame, mem_cons_of_mem _ later, names⟩
  | enqueued =>
    rcases Stage.mem_tokens.mp member with ⟨entry, listed, names⟩ | ⟨frame, listed, names⟩
    · simp only [enqueue, mem_append, mem_singleton] at listed
      rcases listed with old | rfl
      · exact .inl (Stage.mem_tokens.mpr (.inl ⟨entry, old, names⟩))
      · exact .inl (Stage.mem_tokens.mpr (.inr ⟨_, mem_cons_self .., names⟩))
    · refine .inl (Stage.mem_tokens.mpr (.inr ⟨frame, ?_, names⟩))
      rcases mem_append.mp listed with turn | later
      · rw [Frame.mem_whenIdle turn] at names
        cases names
      · exact mem_cons_of_mem _ later
  | enqueueRefused | unreadable =>
    refine .inl (tokens_of_frames (fun _ listed => listed) (fun frame listed names => ?_) member)
    rcases mem_cons.mp listed with rfl | later
    · exact ⟨_, mem_cons_self .., names⟩
    · exact ⟨frame, mem_cons_of_mem _ later, names⟩
  | @popped o entry frames life found =>
    rcases Stage.mem_tokens.mp member with ⟨waiter, listed, names⟩ | ⟨frame, listed, names⟩
    · exact .inl (Stage.mem_tokens.mpr (.inl ⟨waiter, mem_of_mem_eraseP listed, names⟩))
    · rcases mem_cons.mp listed with rfl | later
      · have out : entry.out = o := by simpa using List.find?_some found
        refine .inl (Stage.mem_tokens.mpr (.inl ⟨entry, mem_of_find?_eq_some found, ?_⟩))
        rw [← names, ← out]
        rfl
      · exact .inl (Stage.mem_tokens.mpr (.inr ⟨frame, mem_cons_of_mem _ later, names⟩))
  | result =>
    refine .inl (tokens_of_frames (fun _ listed => listed) (fun frame listed names => ?_) member)
    rcases mem_append.mp listed with advance | last
    · rw [Frame.mem_whenSynchronous advance] at names
      cases names
    · rw [mem_singleton.mp last] at names
      cases names
  | delivered | dropped | limitReached =>
    refine .inl (tokens_of_frames (fun _ listed => listed) (fun frame listed names => ?_) member)
    rw [mem_singleton.mp listed] at names
    cases names
  | finished =>
    rw [retryClean_eq, release_eq] at member
    exact .inl (popped (fun _ listed => listed) member)
  | @retriedAgain t o retry life found =>
    obtain ⟨listed, rfl, rfl⟩ := findRetry_some found
    rcases Stage.mem_tokens.mp member with ⟨waiter, pending, names⟩ | ⟨frame, framed, names⟩
    · exact .inl (Stage.mem_tokens.mpr (.inl ⟨waiter, pending, names⟩))
    · rw [mem_singleton.mp framed] at names
      cases names
      refine .inr ⟨{ retry with attempts := retry.attempts + 1 }, ?_, rfl⟩
      exact Tally.mem_replace.mpr ⟨retry, listed, if_pos rfl⟩
  | @retriedFirst t o life =>
    rcases Stage.mem_tokens.mp member with ⟨waiter, pending, names⟩ | ⟨frame, framed, names⟩
    · exact .inl (Stage.mem_tokens.mpr (.inl ⟨waiter, pending, names⟩))
    · rw [mem_singleton.mp framed] at names
      cases names
      exact .inr ⟨_, mem_append_right _ (mem_singleton_self _), rfl⟩
  | scheduled | spent | forgotten => exact .inl (popped (fun _ listed => listed) member)
  | unschedulable | abandoned =>
    rw [release_eq] at member
    exact .inl (popped (fun _ listed => listed) member)
  | @fired request retry life _ listed _ =>
    rcases Stage.mem_tokens.mp member with ⟨waiter, pending, names⟩ | ⟨frame, framed, names⟩
    · exact .inl (Stage.mem_tokens.mpr (.inl ⟨waiter, pending, names⟩))
    · simp only [mem_cons, not_mem_nil, or_false] at framed
      rcases framed with rfl | rfl
      · cases names
        exact .inr ⟨retry, listed, rfl⟩
      · cases names

theorem Move.retry_origin (move : Move env config rules before after) {retry : TaskRetry}
    (member : retry ∈ after.2.retries) :
    (∃ old ∈ before.2.retries, old.ref = retry.ref ∧ old.parent = retry.parent ∧ old.out = retry.out) ∨
      retry.ref = before.2.nextRef ∧ before.1 = [.result retry.parent retry.out] ∧
        after.1 = [.unscheduled retry.parent retry.out retry.ref] ∧
        ∀ old ∈ before.2.retries, ¬(old.parent = retry.parent ∧ old.out = retry.out) := by
  cases move with
  | quiet quiet => exact .inl ⟨retry, quiet.retries ▸ member, rfl, rfl, rfl⟩
  | destroyed =>
    rw [destroy_eq] at member
    exact .inl ⟨retry, mem_of_mem_filter member, rfl, rfl, rfl⟩
  | doomed | limitReached => exact .inl ⟨retry, (mem_retryDestroy.mp member).1, rfl, rfl, rfl⟩
  | unschedulable | abandoned =>
    rw [release_eq] at member
    exact .inl ⟨retry, (mem_retryDestroy.mp member).1, rfl, rfl, rfl⟩
  | finished =>
    rw [release_eq] at member
    exact .inl ⟨retry, mem_of_mem_retryClean member, rfl, rfl, rfl⟩
  | retriedAgain =>
    obtain ⟨old, listed, changed⟩ := Tally.mem_replace.mp member
    refine .inl ⟨old, listed, ?_⟩
    rw [← changed]
    split
    · exact ⟨rfl, rfl, rfl⟩
    · exact ⟨rfl, rfl, rfl⟩
  | retriedFirst missing =>
    rcases mem_append.mp member with old | new
    · exact .inl ⟨retry, old, rfl, rfl, rfl⟩
    · rw [mem_singleton.mp new]
      exact .inr ⟨rfl, rfl, rfl, findRetry_none missing⟩
  | _ => exact .inl ⟨retry, member, rfl, rfl, rfl⟩

theorem Matched.step (matched : Matched before) (sound : Sound before) (move : Move env config rules before after) :
    Matched after := by
  intro token member
  have soundAfter := sound.step move
  rcases move.tokens member with old | ⟨retry, live, rfl⟩
  · obtain ⟨allocated, same⟩ := matched token old
    refine ⟨Nat.lt_of_lt_of_le allocated move.nextRef_le, ?_⟩
    intro retry live named
    rcases move.retry_origin live with ⟨earlier, listed, ref, parent, out⟩ | ⟨fresh, -⟩
    · rw [← parent, ← out]
      exact same earlier listed (ref.trans named)
    · rw [← named, fresh] at allocated
      exact absurd allocated (Nat.lt_irrefl _)
  · refine ⟨soundAfter.retriesAllocated retry live, ?_⟩
    intro other listed named
    have identical : other = retry := inj_on_of_nodup_map soundAfter.retriesDistinct listed live named
    rw [identical]
    exact ⟨rfl, rfl⟩

structure WellFormed (stage : Stage) : Prop where
  sound : Sound stage
  shaped : Frame.Shaped stage.1
  matched : Matched stage

theorem WellFormed.step (wellFormed : WellFormed before) (move : Move env config rules before after) :
    WellFormed after where
  sound := wellFormed.sound.step move
  shaped := move.shaped wellFormed.shaped
  matched := wellFormed.matched.step wellFormed.sound move

private theorem wellFormed_started (onDisk : OnDisk) : WellFormed ([], (started onDisk).life) where
  sound := sound_started onDisk
  shaped := .owed (.base .idle)
  matched := by
    intro token member
    simp [Stage.tokens, started, Engine.life] at member

section Runs

variable {admissible : Engine → Event → Prop} {onDisk : OnDisk} {engine : Engine}

/-- Every move of a step comes after the history of the engine before the step and is in
its history after the step. -/
theorem moves_invariant (invariant : Stage → Prop) (initial : invariant ([], (started onDisk).life))
    (preserved : ∀ engine event, WellFormed ([], engine.life) → invariant ([], engine.life) →
      admissible engine event → ∀ {before after : Stage}, engine.history <:+ before.2.history →
        after.2.history <:+ (step env config event engine).history →
        Move env config (engineRules env config engine event) before after →
        WellFormed before → invariant before → invariant after)
    (path : Runs.Path (step env config) admissible (started onDisk) engine) :
    WellFormed ([], engine.life) ∧ invariant ([], engine.life) := by
  refine path.invariant (fun engine => WellFormed ([], engine.life) ∧ invariant ([], engine.life))
    ⟨wellFormed_started onDisk, initial⟩ ?_
  intro engine event held admitted
  have carried : ∀ {stage : Stage}, Moves env config (engineRules env config engine event) ([], engine.life) stage →
      Moves env config (engineRules env config engine event) stage ([], (step env config event engine).life) →
      WellFormed stage ∧ invariant stage := by
    intro stage earlier
    induction earlier with
    | refl => exact fun _ => held
    | tail earlier move ih =>
      intro later
      obtain ⟨wellFormed, current⟩ := ih (.head move later)
      exact ⟨wellFormed.step move, preserved engine event held.1 held.2 admitted (Moves.history_suffix earlier)
        (Moves.history_suffix later) move wellFormed current⟩
  exact carried (step_moves held.1.sound event) .refl

/-! What holds after any events. -/

variable (env config onDisk)

private theorem wellFormed_after (events : List Event) :
    WellFormed ([], (Runs.after (step env config) (started onDisk) events).life) :=
  (moves_invariant (fun _ => True) trivial (fun _ _ _ _ _ _ _ _ _ _ _ _ => trivial) (Runs.reached _ _ events)).1

/-- No flush, no queue entry and no retry outlives its task. -/
theorem named_tasks_live (events : List Event) : let engine := Runs.after (step env config) (started onDisk) events
    (engine.tasks.map (·.ref)).Nodup ∧
      ∀ t ∈ engine.flushes.map (·.task) ++ engine.pending.map (·.task) ++ engine.retries.map (·.parent),
        t ∈ engine.tasks.map (·.ref) := by
  have sound := (wellFormed_after env config onDisk events).sound
  exact ⟨sound.distinct, fun t named => sound.live t (mem_append_left _ named)⟩

/-- Each task has a slot of its own, and the other slots are those of tasks that were not completed. -/
theorem tasks_in_slots (events : List Event) : let engine := Runs.after (step env config) (started onDisk) events
    (engine.tasks.map (·.id)).Nodup ∧ engine.tasks.length ≤ tasksMapSize ∧
      (∀ task ∈ engine.tasks, engine.tasksMap task.id = some task.ref) ∧ ∀ id t, engine.tasksMap id = some t →
        (∃ task ∈ engine.tasks, task.ref = t ∧ task.id = id) ∨ .taskCreateFailed t ∈ engine.history := by
  intro engine
  have sound := (wellFormed_after env config onDisk events).sound
  have ids : (engine.tasks.map (·.id)).Nodup := by
    refine (Nodup.of_map _ sound.distinct).map_on fun left leftLive right rightLive same => ?_
    have slot := sound.slots left leftLive
    rw [same, sound.slots right rightLive] at slot
    exact inj_on_of_nodup_map sound.distinct leftLive rightLive (Option.some.inj slot).symm
  have inside : engine.tasks.map (·.id) ⊆ range tasksMapSize := by
    intro id member
    obtain ⟨task, live, rfl⟩ := mem_map.mp member
    exact mem_range.mpr (sound.owners _ _ (sound.slots task live)).1
  have few := (subperm_of_subset ids inside).length_le
  rw [length_map, length_range] at few
  exact ⟨ids, few, sound.slots, fun id t taken => (sound.owners id t taken).2⟩

private theorem countP_flushes : engine.flushes.countP (·.task = t) =
    engine.outstanding.countP (·.task = t) + engine.skipped.countP (·.task = t) := by
  rw [countP_eq_countP_filter_add engine.flushes (fun flush => decide (flush.task = t))
    (fun flush => decide (flush.phase ≠ .skipped))]
  simp [Engine.outstanding, Engine.skipped]

/-- A task that waits for an output waits behind one that is in progress, and a retry that waits is
one of this task for this output. -/
theorem waiting_entries_served (events : List Event) : let engine := Runs.after (step env config) (started onDisk) events
    ∀ entry ∈ engine.pending, (∃ other ∈ engine.inProgress, other.out = entry.out) ∧
      ∀ retry ∈ engine.retries, entry.retry = some retry.ref → retry.parent = entry.task ∧ retry.out = entry.out := by
  intro engine entry waiting
  have wellFormed := wellFormed_after env config onDisk events
  constructor
  · have queue := wellFormed.sound.queues entry.out (any_eq_true.mpr ⟨entry, waiting, decide_eq_true rfl⟩)
    simpa [engine, Engine.life] using queue
  · intro retry live named
    have token : (⟨entry.task, entry.out, retry.ref⟩ : Token) ∈ Stage.tokens ([], engine.life) :=
      Stage.mem_tokens.mpr (.inl ⟨entry, waiting, by rw [TaskEnqueued.token?, named]; rfl⟩)
    exact (wellFormed.matched _ token).2 retry live rfl

end Runs

end FluentBit
