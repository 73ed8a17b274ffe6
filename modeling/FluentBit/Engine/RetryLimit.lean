import FluentBit.Engine.Occupancy

/-! Where the retries of tasks are. Each retry has one request, one flush under
way or one queue entry. `flb_output_task_flush` reports success when the worker
of a threaded output does not take a task, and `flb_engine_reschedule_retries`
does not ask where a retry is, so this takes workers that do and stops that find
no retry under way. -/

set_option autoImplicit false

namespace FluentBit

variable {env : Env} {config : Config} {rules : Rules} {before after : Stage} {o : OutId}

def Attended (stage : Stage) : Prop :=
  ∀ retry ∈ stage.2.retries, 0 < stage.occupied retry.parent retry.out + stage.due retry.ref

theorem Attended.step (workers : ∀ o, config.isThreaded o = true → ¬env.Refuses (.poolFlush o))
    (apart : ∀ life, rules.reschedules life → ∀ retry ∈ life.retries,
      Stage.occupied ([], life) retry.parent retry.out = 0) (timers : ¬rules.refuses)
    (wellFormed : WellFormed before) (exclusive : Exclusive before) (attended : Attended before)
    (move : Move env config rules before after) : Attended after := by
  intro retry listed
  rcases move.retry_origin listed with ⟨old, earlier, ref, parent, out⟩ | ⟨-, -, top, -⟩
  · have held := attended old earlier
    have weight := move.weight wellFormed exclusive earlier ⟨retry, listed, ref.symm⟩
    rw [ref, parent, out] at held weight
    rcases weight with same | ⟨-, o, threaded, refused⟩ | ⟨allowed, idle, occupied, due⟩
    · omega
    · exact absurd refused (workers o threaded)
    · obtain ⟨frames, life⟩ := before
      have free := apart life allowed old earlier
      rcases due with same | moved | ⟨-, refused⟩
      · omega
      · omega
      · exact absurd refused timers
  · have framed : Frame.unscheduled retry.parent retry.out retry.ref ∈ after.1 := by
      rw [top]
      exact List.mem_singleton_self _
    have occupied := Stage.occupied_of_frame framed (Frame.occupies_of_token rfl)
    omega

section Runs

variable {onDisk : OnDisk} {engine : Engine}

/-- Every flush for the output reaches its end: a worker takes it and creates it, or the
pipe of a synchronous output takes it. -/
def HandsOver (env : Env) (config : Config) (o : OutId) : Prop :=
  if config.isThreaded o = true then ¬env.Refuses (.poolFlush o) ∧ ¬env.Refuses (.flushCreate o)
  else config.isSynchronous o = true → ¬env.Refuses (.pipeWrite o)

theorem HandsOver.worker (handsOver : HandsOver env config o) (threaded : config.isThreaded o = true) :
    ¬env.Refuses (.poolFlush o) ∧ ¬env.Refuses (.flushCreate o) := by
  rwa [HandsOver, if_pos threaded] at handsOver

/-- A first stop finds no retry under way, and timers for the retries it finds. -/
def Reschedulable (env : Env) (config : Config) (engine : Engine) (event : Event) : Prop :=
  StopsIdle engine event ∧ (event = .stop → ¬StopRefused env config engine)

private theorem attended_reachable (handsOver : ∀ o, HandsOver env config o)
    (path : Runs.Path (step env config) (Reschedulable env config) (started onDisk) engine) :
    WellFormed ([], engine.life) ∧ Exclusive ([], engine.life) ∧ Attended ([], engine.life) := by
  have initial : Attended ([], (started onDisk).life) := by
    intro retry member
    cases member
  refine moves_invariant (fun stage => Exclusive stage ∧ Attended stage) ⟨exclusive_started, initial⟩ ?_ path
  intro engine event _ held admitted before after _ _ move wellFormed current
  have free : ∀ life, (engineRules env config engine event).reschedules life → ∀ retry ∈ life.retries,
      Stage.occupied ([], life) retry.parent retry.out = 0 := fun life allowed => admitted.1.free held.1 allowed
  constructor
  · exact current.1.step wellFormed move (fun outs => creates_nodup) free
  · exact current.2.step (fun o threaded => ((handsOver o).worker threaded).1) free
      (fun ⟨stops, refused⟩ => admitted.2 stops refused) wellFormed current.1 move

end Runs

namespace Sample

def threaded : Config := Sample.config .mem [{ output 0 with isThreaded := true, retryLimit := 1 }] (by decide)

def oneRetry : List Event :=
  [.append (logs [1]), .dispatch 0, .preCbFlush 3, .outputReturn 3 .retry, .outputEvent 3, .schedTimer 5]

end Sample

open Sample in
private theorem handsOver_willing (config : Config) (o : OutId) : HandsOver willing config o := by
  unfold HandsOver
  split
  · exact ⟨willing_never_refuses _, willing_never_refuses _⟩
  · exact fun _ => willing_never_refuses _

open List Tally Runs Life

variable {env : Env} {config : Config} {rules : Rules} {before after : Stage} {t : TaskRef} {o : OutId}

namespace Frame

def isActive (t : TaskRef) (o : OutId) : Frame → Bool
  | .route t' o' | .attempt t' o' _ _ | .result t' o' | .unscheduled t' o' _ => decide (t' = t) && decide (o' = o)
  | _ => false

def isOver (t : TaskRef) (o : OutId) : Frame → Bool
  | .result t' o' | .closing t' o' => decide (t' = t) && decide (o' = o)
  | _ => false

end Frame

def startsOf (t : TaskRef) (o : OutId) (history : List Action) : Nat :=
  history.countP (fun action => decide (action = .flushStarted o t))

def dropsOf (t : TaskRef) (o : OutId) (history : List Action) : Nat :=
  history.countP (fun action => decide (action = .recordsDropped o t))

/-- Records of the task are counted as dropped for the output while space is released. -/
def Discards (rules : Rules) (t : TaskRef) (o : OutId) (before after : Stage) : Prop :=
  rules.counts ∧ dropsOf t o before.2.history < dropsOf t o after.2.history

namespace Stage

def Active (stage : Stage) (t : TaskRef) (o : OutId) : Prop :=
  (∃ flush ∈ stage.2.flushes, flush.task = t ∧ flush.out = o) ∨
    (∃ entry ∈ stage.2.pending, entry.task = t ∧ entry.out = o) ∨ ∃ frame ∈ stage.1, frame.isActive t o = true

def inFlight (stage : Stage) (t : TaskRef) (o : OutId) : Nat :=
  stage.2.flushes.countP (fun flush => decide (flush.task = t) && decide (flush.out = o)) +
    stage.1.countP (Frame.isOver t o)

end Stage

section Counting

variable {life : Life} {t' : TaskRef} {o' : OutId} {history : List Action}

@[simp] theorem over_whenSynchronous : (whenSynchronous config o').countP (Frame.isOver t o) = 0 :=
  countP_whenSynchronous rfl

@[simp] theorem over_whenIdle : (whenIdle life o').countP (Frame.isOver t o) = 0 := countP_whenIdle rfl

@[simp] theorem over_afterFailure (queued : Bool) (retry : Option RetryRef) :
    (afterFailure queued t' o' retry).countP (Frame.isOver t o) = 0 :=
  countP_afterFailure rfl

@[simp] theorem startsOf_release : startsOf t o (life.release t').history = startsOf t o life.history := by
  rcases release_cases t' life with ⟨same, -⟩ | ⟨task, -, -, -, same⟩
  · rw [same]
  · rw [same]
    simp [startsOf]

@[simp] theorem dropsOf_release : dropsOf t o (life.release t').history = dropsOf t o life.history := by
  rcases release_cases t' life with ⟨same, -⟩ | ⟨task, -, -, -, same⟩
  · rw [same]
  · rw [same]
    simp [dropsOf]

end Counting

theorem Move.starts (move : Move env config rules before after) (t : TaskRef) (o : OutId) :
    startsOf t o after.2.history = startsOf t o before.2.history ∨
      (∃ name queued, .attempt t o name queued ∈ before.1) ∧
        startsOf t o after.2.history = startsOf t o before.2.history + 1 := by
  cases move with
  | quiet quiet => exact .inl (by rw [quiet.history])
  | destroyed =>
    rw [destroy_eq]
    exact .inl rfl
  | @flushed t' o' name queued frames life =>
    by_cases same : o' = o ∧ t' = t
    · obtain ⟨rfl, rfl⟩ := same
      exact .inr ⟨⟨name, queued, mem_cons_self ..⟩, by simp [startsOf]⟩
    · exact .inl (by simp [startsOf, same])
  | finished =>
    rw [startsOf_release, retryClean_eq]
    exact .inl rfl
  | unschedulable | abandoned =>
    rw [startsOf_release]
    exact .inl rfl
  | _ => exact .inl (by simp [startsOf])

theorem Move.drops (move : Move env config rules before after) (t : TaskRef) (o : OutId) :
    dropsOf t o after.2.history = dropsOf t o before.2.history ∨
      (before.1 = [.result t o] ∧ after.1 = [.closing t o] ∧ after.2.flushes = before.2.flushes ∧
        after.2.pending = before.2.pending ∧ dropsOf t o after.2.history = dropsOf t o before.2.history + 1) ∨
      Discards rules t o before after := by
  cases move with
  | quiet quiet => exact .inl (by rw [quiet.history])
  | destroyed =>
    rw [destroy_eq]
    exact .inl rfl
  | @dropCounted o' t' life allowed =>
    by_cases same : o' = o ∧ t' = t
    · obtain ⟨rfl, rfl⟩ := same
      exact .inr (.inr ⟨allowed, by simp [dropsOf]⟩)
    · exact .inl (by simp [dropsOf, same])
  | @dropped t' o' life | @limitReached t' o' retry life =>
    by_cases same : o' = o ∧ t' = t
    · obtain ⟨rfl, rfl⟩ := same
      exact .inr (.inl ⟨rfl, rfl, rfl, rfl, by simp [dropsOf]⟩)
    · exact .inl (by simp [dropsOf, same])
  | finished =>
    rw [dropsOf_release, retryClean_eq]
    exact .inl rfl
  | unschedulable | abandoned =>
    rw [dropsOf_release]
    exact .inl rfl
  | _ => exact .inl (by simp [dropsOf])

theorem Move.active_origin (sound : Sound before) (move : Move env config rules before after)
    (active : after.Active t o) : before.Active t o ∨ (∃ task ∈ before.2.tasks, task.ref = t ∧ task.status = .new) ∨
      before.1 = [] ∧ ∃ retry ∈ before.2.retries, retry.parent = t ∧ retry.out = o := by
  have framed : ∀ {frame : Frame}, frame ∈ before.1 → frame.isActive t o = true → before.Active t o :=
    fun member isActive => .inr (.inr ⟨_, member, isActive⟩)
  rcases active with ⟨flush, flying, rfl, rfl⟩ | ⟨entry, waiting, rfl, rfl⟩ | ⟨frame, member, isActive⟩
  · rcases move.flush_origin flying with ⟨old, earlier, task, out⟩ | ⟨⟨name, queued, attempt⟩, -⟩
    · exact .inl (.inl ⟨old, earlier, task, out⟩)
    · exact .inl (framed attempt (by simp [Frame.isActive]))
  · rcases move.entry_origin waiting with earlier | attempt
    · exact .inl (.inr (.inl ⟨entry, earlier, rfl, rfl⟩))
    · exact .inl (framed attempt (by simp [Frame.isActive]))
  · rcases move.frame_origin sound member with old | source
    · exact .inl (framed old isActive)
    · cases frame with
      | starting | doomed | advance | turn | closing | spent => cases isActive
      | route t' o' =>
        obtain ⟨rfl, rfl⟩ : t' = t ∧ o' = o := by simpa [Frame.isActive] using isActive
        exact .inr (.inl source)
      | result t' o' =>
        obtain ⟨rfl, rfl⟩ : t' = t ∧ o' = o := by simpa [Frame.isActive] using isActive
        exact .inl (.inl source)
      | unscheduled t' o' r =>
        obtain ⟨rfl, rfl⟩ : t' = t ∧ o' = o := by simpa [Frame.isActive] using isActive
        exact .inl (framed source (by simp [Frame.isActive]))
      | attempt t' o' name queued =>
        obtain ⟨rfl, rfl⟩ : t' = t ∧ o' = o := by simpa [Frame.isActive] using isActive
        cases queued with
        | true =>
          have entry : ∃ entry ∈ before.2.pending, entry.task = t' ∧ entry.out = o' ∧ entry.retry = name := by
            cases name <;> exact source
          obtain ⟨entry, waiting, task, out, -⟩ := entry
          exact .inl (.inr (.inl ⟨entry, waiting, task, out⟩))
        | false =>
          cases name with
          | none => exact .inl (framed source (by simp [Frame.isActive]))
          | some r =>
            obtain ⟨idle, retry, listed, -, parent, out⟩ := source
            exact .inr (.inr ⟨idle, retry, listed, parent, out⟩)

variable {top : Frame} {rest : List Frame} {life : Life} {retry : TaskRetry}

theorem Exclusive.only_top (exclusive : Exclusive before) (shape : before.1 = top :: rest)
    (occupies : top.occupies t o = true) : (∀ flush ∈ before.2.flushes, ¬(flush.task = t ∧ flush.out = o)) ∧
      (∀ entry ∈ before.2.pending, ¬(entry.task = t ∧ entry.out = o)) ∧ ∀ frame ∈ rest, frame.isActive t o = false := by
  have lone := exclusive.lone t o
  rw [Stage.occupied, shape, countP_cons_of_pos occupies] at lone
  refine ⟨fun flush member same => ?_, fun entry member same => ?_, fun frame member => ?_⟩
  · have some : 0 < before.2.flushes.countP (fun flush => decide (flush.task = t) && decide (flush.out = o)) :=
      countP_pos_iff.mpr ⟨flush, member, by simp [same]⟩
    omega
  · have some : 0 < before.2.pending.countP (fun entry => decide (entry.task = t) && decide (entry.out = o)) :=
      countP_pos_iff.mpr ⟨entry, member, by simp [same]⟩
    omega
  · by_contra active
    have framed : frame.occupies t o = true := by
      cases frame <;> simp_all [Frame.isActive, Frame.occupies]
    exact exclusive.not_mem_rest shape occupies framed member

private theorem inFlight_setPhase {frames : List Frame} (f : Nat) (phase : FlushPhase) :
    Stage.inFlight (frames, life.setPhase f phase) t o = Stage.inFlight (frames, life) t o := by
  simp only [Stage.inFlight, flushes_setPhase]

private theorem inFlight_result {f : Nat} {flush : OutputFlush} (found : life.flushes.find? (·.ref = f) = some flush) :
    Stage.inFlight (whenSynchronous config flush.out ++ [.result flush.task flush.out],
      { life with flushes := life.flushes.eraseP (·.ref = f) }) t o = Stage.inFlight ([], life) t o := by
  simp [Stage.inFlight, Frame.isOver, flushes_result found]

def Stage.spentStarts (stage : Stage) (t : TaskRef) (o : OutId) : Int :=
  startsOf t o stage.2.history - stage.inFlight t o

theorem Move.spentStarts (sound : Sound before) (move : Move env config rules before after) (t : TaskRef) (o : OutId) :
    after.spentStarts t o = before.spentStarts t o ∨ (before.1 = [.closing t o] ∧ after.1 = []) ∨
      before.1 = [.result t o] ∧ ∃ r, after.1 = [.unscheduled t o r] := by
  cases move with
  | quiet quiet =>
    refine .inl ?_
    simp [Stage.spentStarts, Stage.inFlight, quiet.history, quiet.flushes]
  | destroyed =>
    rw [destroy_eq]
    exact .inl rfl
  | phase =>
    refine .inl ?_
    simp only [Stage.spentStarts]
    rw [show Stage.inFlight ([], (setPhase _ _ _).setRoute _ _ _) t o = _ from inFlight_setPhase _ _]
    rfl
  | @run task life found isNew =>
    refine .inl ?_
    simp only [Stage.spentStarts, Stage.inFlight, countP_append]
    simp [Frame.isOver]
  | @result f flush t' life found slot =>
    rw [sound.result_task slot]
    refine .inl ?_
    simp only [Stage.spentStarts]
    rw [inFlight_result found]
  | @flushed t' o' name queued frames life =>
    refine .inl ?_
    by_cases same : o' = o ∧ t' = t
    · simp [Stage.spentStarts, Stage.inFlight, startsOf, Frame.isOver, same]
      omega
    · simp [Stage.spentStarts, Stage.inFlight, startsOf, Frame.isOver, same]
      exact fun task out => same ⟨out, task⟩
  | @finished t' o' life =>
    by_cases same : t' = t ∧ o' = o
    · obtain ⟨rfl, rfl⟩ := same
      exact .inr (.inl ⟨rfl, rfl⟩)
    · refine .inl ?_
      simp only [Stage.spentStarts, startsOf_release]
      rw [release_eq, retryClean_eq]
      simp [Stage.inFlight, Frame.isOver, same]
  | @retriedAgain t' o' retry life | @retriedFirst t' o' life =>
    by_cases same : t' = t ∧ o' = o
    · obtain ⟨rfl, rfl⟩ := same
      exact .inr (.inr ⟨rfl, _, rfl⟩)
    · refine .inl ?_
      simp [Stage.spentStarts, Stage.inFlight, Frame.isOver, same]
  | unschedulable | abandoned =>
    refine .inl ?_
    simp only [Stage.spentStarts, startsOf_release]
    rw [release_eq]
    simp [Stage.inFlight, Frame.isOver]
  | _ =>
    refine .inl ?_
    simp [Stage.spentStarts, Stage.inFlight, startsOf, Frame.isOver, countP_cons]

theorem Move.attempts_origin (sound : Sound before) (move : Move env config rules before after)
    (member : retry ∈ after.2.retries) : (∃ old ∈ before.2.retries, old.parent = retry.parent ∧ old.out = retry.out ∧
      (retry.attempts = old.attempts ∨ retry.attempts = old.attempts + 1 ∧
        ((old.attempts : Int) < config.retryLimit retry.out ∨ config.retryLimit retry.out < 0))) ∨
      before.1 = [.result retry.parent retry.out] ∧ retry.attempts = 1 ∧ config.retryLimit retry.out ≠ 0 ∧
        ∀ old ∈ before.2.retries, ¬(old.parent = retry.parent ∧ old.out = retry.out) := by
  cases move with
  | quiet quiet => exact .inl ⟨retry, quiet.retries ▸ member, rfl, rfl, .inl rfl⟩
  | destroyed =>
    rw [destroy_eq] at member
    exact .inl ⟨retry, mem_of_mem_filter member, rfl, rfl, .inl rfl⟩
  | doomed | limitReached => exact .inl ⟨retry, (mem_retryDestroy.mp member).1, rfl, rfl, .inl rfl⟩
  | unschedulable | abandoned =>
    rw [release_eq] at member
    exact .inl ⟨retry, (mem_retryDestroy.mp member).1, rfl, rfl, .inl rfl⟩
  | finished =>
    rw [release_eq] at member
    exact .inl ⟨retry, mem_of_mem_retryClean member, rfl, rfl, .inl rfl⟩
  | @retriedAgain t o again life found below =>
    obtain ⟨againListed, _, rfl⟩ := findRetry_some found
    obtain ⟨old, listed, changed⟩ := mem_replace.mp member
    refine .inl ⟨old, listed, ?_⟩
    rw [← changed]
    split
    next own =>
      cases inj_on_of_nodup_map sound.retriesDistinct listed againListed own
      exact ⟨rfl, rfl, .inr ⟨rfl, below⟩⟩
    · exact ⟨rfl, rfl, .inl rfl⟩
  | retriedFirst missing allowed =>
    rcases mem_append.mp member with old | new
    · exact .inl ⟨retry, old, rfl, rfl, .inl rfl⟩
    · rw [mem_singleton.mp new]
      exact .inr ⟨rfl, rfl, allowed, findRetry_none missing⟩
  | _ => exact .inl ⟨retry, member, rfl, rfl, .inl rfl⟩

theorem Exclusive.inactive_of_top (exclusive : Exclusive before) (shape : before.1 = top :: rest)
    (occupies : top.occupies t o = true) (flushes : after.2.flushes = before.2.flushes)
    (pending : after.2.pending = before.2.pending)
    (frames : ∀ frame ∈ after.1, frame.isActive t o = true → frame ∈ rest) : ¬after.Active t o := by
  obtain ⟨noFlush, noEntry, noFrame⟩ := exclusive.only_top shape occupies
  rintro (⟨flush, member, same⟩ | ⟨entry, member, same⟩ | ⟨frame, member, active⟩)
  · exact noFlush flush (flushes ▸ member) same
  · exact noEntry entry (pending ▸ member) same
  · rw [noFrame frame (frames frame member active)] at active
    cases active

theorem Move.removed_inactive (wellFormed : WellFormed before) (exclusive : Exclusive before)
    (move : Move env config rules before after) (listed : retry ∈ before.2.retries)
    (gone : ∀ later ∈ after.2.retries, later.ref ≠ retry.ref) : ¬after.Active retry.parent retry.out := by
  have soundAfter := wellFormed.sound.step move
  have stays : after.2.retries = before.2.retries → ¬after.Active retry.parent retry.out :=
    fun same => absurd rfl (gone retry (same ▸ listed))
  have destroyed : ∀ {r : RetryRef}, after.2.retries = before.2.retries.filter (·.ref ≠ r) → retry.ref = r := by
    intro r same
    by_contra different
    exact gone retry (same ▸ mem_filter.mpr ⟨listed, decide_eq_true different⟩) rfl
  have named : ∀ {frame : Frame} {t : TaskRef} {o : OutId}, frame ∈ before.1 →
      frame.token? = some ⟨t, o, retry.ref⟩ → frame.occupies retry.parent retry.out = true := by
    intro frame t o framed token
    obtain ⟨rfl, rfl⟩ := (wellFormed.matched _ (Stage.mem_tokens.mpr (.inr ⟨frame, framed, token⟩))).2 retry listed rfl
    exact Frame.occupies_of_token token
  have found : ∀ {t : TaskRef} {o : OutId} {old : TaskRetry}, before.2.findRetry t o = some old →
      retry.ref = old.ref → retry.parent = t ∧ retry.out = o := by
    intro t o old found same
    obtain ⟨oldListed, rfl, rfl⟩ := findRetry_some found
    cases inj_on_of_nodup_map wellFormed.sound.retriesDistinct listed oldListed same
    exact ⟨rfl, rfl⟩
  cases move with
  | quiet quiet => exact stays quiet.retries
  | @destroyed task life live unused =>
    intro active
    have own : retry.parent = task.ref := by
      by_contra other
      exact gone retry (mem_retries_destroy wellFormed.sound.retriesDistinct listed other) rfl
    have mentioned : retry.parent ∈ Stage.mentioned ([], life.destroy task) := by
      rcases active with ⟨flush, member, same, -⟩ | ⟨entry, member, same, -⟩ | ⟨frame, member, -⟩
      · exact Stage.mem_mentioned.mpr (.inl ⟨flush, member, same⟩)
      · exact Stage.mem_mentioned.mpr (.inr (.inl ⟨entry, member, same⟩))
      · cases member
    obtain ⟨other, remains, same⟩ := mem_taskRefs.mp (soundAfter.live _ mentioned)
    rw [destroy_eq] at remains
    exact (mem_discard.mp remains).2 (same.trans own)
  | @doomed t o r frames life =>
    obtain rfl := destroyed rfl
    exact exclusive.inactive_of_top rfl (named (mem_cons_self ..) rfl) rfl rfl fun _ member _ => member
  | @limitReached t o old life limit =>
    obtain ⟨rfl, rfl⟩ := found limit (destroyed rfl)
    exact exclusive.inactive_of_top rfl (by simp [Frame.occupies]) rfl rfl (by simp [Frame.isActive])
  | @finished t o life =>
    rcases retryClean_cases t o life with ⟨cleaned, -⟩ | ⟨old, limit, cleaned⟩
    · refine stays ?_
      rw [release_eq, cleaned]
      rfl
    · obtain ⟨rfl, rfl⟩ := found limit (destroyed (by rw [release_eq, cleaned]; rfl))
      refine exclusive.inactive_of_top rfl (by simp [Frame.occupies]) ?_ ?_ (by simp)
      · rw [release_eq, retryClean_eq]
        rfl
      · rw [release_eq, retryClean_eq]
        rfl
  | @unschedulable t o r life =>
    obtain rfl := destroyed (by rw [release_eq]; rfl)
    refine exclusive.inactive_of_top rfl (named (mem_singleton_self _) rfl) ?_ ?_ (by simp)
    · rw [release_eq]
      rfl
    · rw [release_eq]
      rfl
  | @abandoned t o r req life =>
    obtain rfl := destroyed (by rw [release_eq]; rfl)
    refine exclusive.inactive_of_top rfl (named (mem_cons_self ..) rfl) ?_ ?_ fun _ member _ => member
    · rw [release_eq]
      rfl
    · rw [release_eq]
      rfl
  | @retriedAgain t o old life =>
    refine absurd ?_ (gone _ (mem_replace.mpr ⟨retry, listed, rfl⟩))
    split
    · rfl
    · rfl
  | retriedFirst => exact absurd rfl (gone retry (mem_append_left _ listed))
  | _ => exact stays rfl

theorem Exclusive.inFlight_le (exclusive : Exclusive before) (t : TaskRef) (o : OutId) : before.inFlight t o ≤ 1 := by
  have atMost : before.1.countP (Frame.isOver t o) ≤ before.1.countP (Frame.occupies t o) := by
    apply countP_mono_left
    intro frame _ isOver
    cases frame <;> simp_all [Frame.isOver, Frame.occupies]
  have lone := exclusive.lone t o
  simp only [Stage.occupied, Stage.inFlight] at lone ⊢
  omega

theorem Exclusive.inFlight_attempt (exclusive : Exclusive before) {name : Option RetryRef} {queued : Bool}
    (member : .attempt t o name queued ∈ before.1) : before.inFlight t o = 0 := by
  have split : before.1.countP (Frame.isOver t o) + 1 ≤ before.1.countP (Frame.occupies t o) := by
    obtain ⟨front, back, shape⟩ := append_of_mem member
    have atMost : ∀ frames : List Frame, frames.countP (Frame.isOver t o) ≤ frames.countP (Frame.occupies t o) := by
      intro frames
      apply countP_mono_left
      intro frame _ isOver
      cases frame <;> simp_all [Frame.isOver, Frame.occupies]
    have left := atMost front
    have right := atMost back
    rw [shape]
    simp [Frame.isOver, Frame.occupies]
    omega
  have lone := exclusive.lone t o
  simp only [Stage.occupied, Stage.inFlight] at lone ⊢
  omega

private theorem startsOf_eq_zero {history : List Action} (untouched : history.any (Action.touches t) = false) :
    startsOf t o history = 0 := by
  rw [startsOf, countP_eq_zero]
  intro action member started
  rw [any_eq_false] at untouched
  exact untouched action member (by simp [of_decide_eq_true started, Action.touches])

theorem Move.closing_next (move : Move env config rules before after) (top : before.1 = [.closing t o]) :
    after.1 = [.closing t o] ∨ after.1 = [] := by
  obtain ⟨frames, life⟩ := before
  subst top
  cases move with
  | quiet => exact .inl rfl
  | finished => exact .inr rfl

theorem Move.closing_kept (move : Move env config rules before after) (top : before.1 = [.closing t o]) :
    after.2.flushes = before.2.flushes ∧ after.2.pending = before.2.pending := by
  obtain ⟨frames, life⟩ := before
  subst top
  cases move with
  | quiet quiet => exact ⟨quiet.flushes, quiet.pending⟩
  | finished =>
    rw [release_eq, retryClean_eq]
    exact ⟨rfl, rfl⟩

theorem Exclusive.closed_retry (exclusive : Exclusive before) (move : Move env config rules before after)
    (top : before.1 = [.closing t o]) (done : after.1 = []) :
    ∀ retry ∈ after.2.retries, retry.parent = t → retry.out = o → False := by
  rintro retry listed rfl rfl
  obtain ⟨frames, life⟩ := before
  subst top
  cases move with
  | quiet => cases done
  | finished =>
    rw [release_eq] at listed
    rcases retryClean_cases retry.parent retry.out life with ⟨cleaned, missing⟩ | ⟨old, found, cleaned⟩
    · simp only [cleaned] at listed
      exact findRetry_none missing retry listed ⟨rfl, rfl⟩
    · obtain ⟨oldListed, parent, out⟩ := findRetry_some found
      simp only [cleaned] at listed
      obtain ⟨earlier, different⟩ := mem_retryDestroy.mp listed
      cases exclusive.single retry earlier old oldListed parent.symm out.symm
      exact different rfl

theorem Exclusive.retried_again (exclusive : Exclusive before) (sound : Sound before)
    (move : Move env config rules before after) {r : RetryRef} (top : before.1 = [.result t o])
    (next : after.1 = [.unscheduled t o r]) {old : TaskRetry} (listed : retry ∈ after.2.retries)
    (parent : retry.parent = t) (out : retry.out = o) (earlier : old ∈ before.2.retries)
    (sameParent : old.parent = retry.parent) (sameOut : old.out = retry.out) : retry.attempts = old.attempts + 1 := by
  subst parent out
  obtain ⟨frames, life⟩ := before
  subst top
  cases move with
  | quiet | delivered | dropped | limitReached => simp at next
  | @retriedAgain _ _ again _ found =>
    obtain ⟨againListed, parent, out⟩ := findRetry_some found
    cases exclusive.single old earlier again againListed (sameParent.trans parent.symm) (sameOut.trans out.symm)
    obtain ⟨member, among, changed⟩ := mem_replace.mp listed
    split at changed
    next own =>
      cases inj_on_of_nodup_map sound.retriesDistinct among againListed own
      rw [← changed]
    next other =>
      subst changed
      cases exclusive.single member among old againListed sameParent.symm sameOut.symm
      exact absurd rfl other
  | retriedFirst missing => exact absurd ⟨sameParent, sameOut⟩ (findRetry_none missing old earlier)

/-- The retries of an output pay for the flushes that are spent, and records that were
dropped are not flushed again. -/
structure Limited (config : Config) (o : OutId) (stage : Stage) : Prop where
  attempts : ∀ retry ∈ stage.2.retries, retry.out = o → (retry.attempts : Int) ≤ config.retryLimit o
  starts : ∀ t, (startsOf t o stage.2.history : Int) ≤ config.retryLimit o + 1
  retried : ∀ retry ∈ stage.2.retries, retry.out = o → stage.spentStarts retry.parent o ≤ retry.attempts
  first : ∀ t, (∀ retry ∈ stage.2.retries, ¬(retry.parent = t ∧ retry.out = o)) → stage.Active t o →
    stage.spentStarts t o ≤ 0
  begun : ∀ t, stage.Begun t o → .flushStarted o t ∈ stage.2.history
  dropped : ∀ t, dropsOf t o stage.2.history ≠ 0 → .flushStarted o t ∈ stage.2.history
  once : ∀ t, dropsOf t o stage.2.history ≤ 1
  active : ∀ t, stage.Active t o → dropsOf t o stage.2.history = 0
  waiting : ∀ retry ∈ stage.2.retries, retry.out = o →
    dropsOf retry.parent o stage.2.history = 0 ∨ stage.1 = [.closing retry.parent o]

namespace Limited

variable (limited : Limited config o before) (wellFormed : WellFormed before) (exclusive : Exclusive before)
  (move : Move env config rules before after)

include limited move

private theorem step_attempts (sound : Sound before) (limit : 0 ≤ config.retryLimit o) :
    ∀ retry ∈ after.2.retries, retry.out = o → (retry.attempts : Int) ≤ config.retryLimit o := by
  rintro retry listed rfl
  rcases move.attempts_origin sound listed with ⟨old, earlier, -, out, same | ⟨more, below⟩⟩ | ⟨-, one, allowed, -⟩
  · rw [same]
    exact limited.attempts old earlier out
  · rcases below with below | unlimited
    · omega
    · omega
  · omega

private theorem step_begun (sound : Sound before) (t : TaskRef) (begun : after.Begun t o) :
    .flushStarted o t ∈ after.2.history := by
  rcases move.begun_origin sound begun with earlier | started
  · exact move.history_suffix.subset (limited.begun t earlier)
  · exact started

private theorem step_dropped (uncounted : ∀ t, ¬Discards rules t o before after) (t : TaskRef)
    (dropped : dropsOf t o after.2.history ≠ 0) :
    .flushStarted o t ∈ after.2.history := by
  apply move.history_suffix.subset
  rcases move.drops t o with same | ⟨top, -⟩ | counted
  · exact limited.dropped t (same ▸ dropped)
  · exact limited.begun t (.inr (.inl (top ▸ mem_singleton_self _)))
  · exact absurd counted (uncounted t)

private theorem step_once (uncounted : ∀ t, ¬Discards rules t o before after) (t : TaskRef) :
    dropsOf t o after.2.history ≤ 1 := by
  rcases move.drops t o with same | ⟨top, -, -, -, more⟩ | counted
  · rw [same]
    exact limited.once t
  · have active : before.Active t o := .inr (.inr ⟨_, top ▸ mem_singleton_self _, by simp [Frame.isActive]⟩)
    rw [more, limited.active t active]
  · exact absurd counted (uncounted t)

include exclusive

private theorem step_starts (limit : 0 ≤ config.retryLimit o) (t : TaskRef) :
    (startsOf t o after.2.history : Int) ≤ config.retryLimit o + 1 := by
  rcases move.starts t o with same | ⟨⟨name, queued, attempt⟩, more⟩
  · rw [same]
    exact limited.starts t
  · have idle := exclusive.inFlight_attempt attempt
    have active : before.Active t o := .inr (.inr ⟨_, attempt, by simp [Frame.isActive]⟩)
    have spent : before.spentStarts t o ≤ config.retryLimit o := by
      by_cases retried : ∃ retry ∈ before.2.retries, retry.parent = t ∧ retry.out = o
      · obtain ⟨retry, listed, rfl, out⟩ := retried
        exact Int.le_trans (limited.retried retry listed out) (limited.attempts retry listed out)
      · have free : ∀ retry ∈ before.2.retries, ¬(retry.parent = t ∧ retry.out = o) :=
          fun retry listed same => retried ⟨retry, listed, same⟩
        exact Int.le_trans (limited.first t free active) limit
    simp only [Stage.spentStarts, idle] at spent
    omega

private theorem step_waiting (uncounted : ∀ t, ¬Discards rules t o before after) :
    ∀ retry ∈ after.2.retries, retry.out = o →
    dropsOf retry.parent o after.2.history = 0 ∨ after.1 = [.closing retry.parent o] := by
  rintro retry listed rfl
  rcases move.drops retry.parent retry.out with same | ⟨-, next, -⟩ | counted
  · rw [same]
    rcases move.retry_origin listed with ⟨old, earlier, -, parent, out⟩ | ⟨-, top, -⟩
    · rw [← parent]
      rcases limited.waiting old earlier out with none | closing
      · exact .inl none
      · rw [parent] at closing
        rcases move.closing_next closing with stays | done
        · rw [parent]
          exact .inr stays
        · exact absurd listed (exclusive.closed_retry move closing done retry · rfl rfl)
    · have active : before.Active retry.parent retry.out :=
        .inr (.inr ⟨_, top ▸ mem_singleton_self _, by simp [Frame.isActive]⟩)
      exact .inl (limited.active _ active)
  · exact .inr next
  · exact absurd counted (uncounted _)

include wellFormed

private theorem step_retried :
    ∀ retry ∈ after.2.retries, retry.out = o → after.spentStarts retry.parent o ≤ retry.attempts := by
  rintro retry listed rfl
  have inFlight := exclusive.inFlight_le retry.parent retry.out
  -- While the result of a flush is in hand, no other flush is counted.
  have unstarted : before.1 = [.result retry.parent retry.out] →
      after.spentStarts retry.parent retry.out ≤ before.spentStarts retry.parent retry.out + 1 := by
    intro top
    rcases move.starts retry.parent retry.out with same | ⟨⟨name, queued, attempt⟩, -⟩
    · simp only [Stage.spentStarts, same]
      omega
    · simp [top] at attempt
  rcases move.attempts_origin wellFormed.sound listed with ⟨old, earlier, parent, out, paid⟩ | ⟨top, one, -, free⟩
  · have held := limited.retried old earlier out
    rw [parent] at held
    rcases move.spentStarts wellFormed.sound retry.parent retry.out with same | ⟨top, done⟩ | ⟨top, r, next⟩
    · rcases paid with same | ⟨more, -⟩
      · omega
      · omega
    · exact absurd listed (exclusive.closed_retry move top done retry · rfl rfl)
    · have more := exclusive.retried_again wellFormed.sound move top next listed rfl rfl earlier parent out
      have spent := unstarted top
      omega
  · have active : before.Active retry.parent retry.out :=
      .inr (.inr ⟨_, top ▸ mem_singleton_self _, by simp [Frame.isActive]⟩)
    have spent := unstarted top
    have held := limited.first retry.parent free active
    omega

theorem step_first (t : TaskRef) (free : ∀ retry ∈ after.2.retries, ¬(retry.parent = t ∧ retry.out = o))
    (active : after.Active t o) : after.spentStarts t o ≤ 0 := by
  by_cases retried : ∃ retry ∈ before.2.retries, retry.parent = t ∧ retry.out = o
  · obtain ⟨retry, listed, rfl, rfl⟩ := retried
    refine absurd active (move.removed_inactive wellFormed exclusive listed ?_)
    intro later stays same
    rcases move.retry_origin stays with ⟨old, earlier, ref, parent, out⟩ | ⟨fresh, -⟩
    · cases inj_on_of_nodup_map wellFormed.sound.retriesDistinct earlier listed (ref.trans same)
      exact free later stays ⟨parent.symm, out.symm⟩
    · have allocated := wellFormed.sound.retriesAllocated retry listed
      rw [← same, fresh] at allocated
      exact Nat.lt_irrefl _ allocated
  · have none : ∀ retry ∈ before.2.retries, ¬(retry.parent = t ∧ retry.out = o) :=
      fun retry listed same => retried ⟨retry, listed, same⟩
    rcases move.active_origin wellFormed.sound active with earlier | ⟨task, live, rfl, isNew⟩ | ⟨-, retry, listed, same⟩
    · have held := limited.first t none earlier
      rcases move.spentStarts wellFormed.sound t o with same | ⟨top, done⟩ | ⟨top, r, next⟩
      · omega
      · obtain ⟨flushes, pending⟩ := move.closing_kept top
        exact absurd active (exclusive.inactive_of_top top (by simp [Frame.occupies]) flushes pending (by simp [done]))
      · have framed : Frame.unscheduled t o r ∈ after.1 := by simp [next]
        rcases move.unscheduled_origin framed with old | ⟨-, live, stays, -, parent, out⟩
        · simp [top] at old
        · exact absurd ⟨parent, out⟩ (free live stays)
    · obtain ⟨unmentioned, untouched⟩ := wellFormed.sound.untouched task live isNew
      have started : startsOf task.ref o after.2.history = 0 := by
        rcases move.starts task.ref o with same | ⟨⟨name, queued, attempt⟩, -⟩
        · rw [same]
          exact startsOf_eq_zero untouched
        · exact absurd (Stage.mem_mentioned.mpr (.inr (.inr (.inr ⟨_, attempt, rfl⟩)))) unmentioned
      simp only [Stage.spentStarts, started]
      omega
    · exact absurd same (none retry listed)

private theorem step_active (uncounted : ∀ t, ¬Discards rules t o before after) (t : TaskRef)
    (active : after.Active t o) : dropsOf t o after.2.history = 0 := by
  rcases move.drops t o with same | ⟨top, next, flushes, pending, -⟩ | counted
  · rw [same]
    rcases move.active_origin wellFormed.sound active with earlier | ⟨task, live, rfl, isNew⟩ |
      ⟨idle, retry, listed, rfl, out⟩
    · exact limited.active t earlier
    · obtain ⟨-, untouched⟩ := wellFormed.sound.untouched task live isNew
      by_contra dropped
      have started := limited.dropped task.ref dropped
      rw [any_eq_false] at untouched
      exact untouched _ started (by simp [Action.touches])
    · rcases limited.waiting retry listed out with none | closing
      · exact none
      · rw [idle] at closing
        cases closing
  · refine absurd active (exclusive.inactive_of_top top (by simp [Frame.occupies]) flushes pending ?_)
    simp [next, Frame.isActive]
  · exact absurd counted (uncounted t)

theorem step (uncounted : ∀ t, ¬Discards rules t o before after) (limit : 0 ≤ config.retryLimit o) : Limited config o after where
  attempts := limited.step_attempts move wellFormed.sound limit
  starts := limited.step_starts exclusive move limit
  retried := limited.step_retried wellFormed exclusive move
  first := limited.step_first wellFormed exclusive move
  begun := limited.step_begun move wellFormed.sound
  dropped := limited.step_dropped move uncounted
  once := limited.step_once move uncounted
  active := limited.step_active wellFormed exclusive move uncounted
  waiting := limited.step_waiting exclusive move uncounted

end Limited

section Runs

variable {onDisk : OnDisk} {engine : Engine}

/-- A first stop finds no retry under way, and an append that makes room counts no records
of a task as dropped for the output. -/
def Accountable (env : Env) (config : Config) (o : OutId) (engine : Engine) (event : Event) : Prop :=
  StopsIdle engine event ∧ ∀ args, event = .append args → ∀ t,
    dropsOf t o (inputChunkAppendRaw env config args engine).history = dropsOf t o engine.history

private theorem limited_started (limit : 0 ≤ config.retryLimit o) :
    Limited config o ([], (started onDisk).life) := by
  constructor
  · intro retry member
    cases member
  · intro t
    simp [startsOf, started, Engine.life]
    omega
  · intro retry member
    cases member
  · intro t _ active
    simp [Stage.Active, Engine.life, started] at active
  · intro t begun
    simp [Stage.Begun, Stage.tokens, Engine.life, started] at begun
  · intro t dropped
    simp [dropsOf, started, Engine.life] at dropped
  · intro t
    simp [dropsOf, started, Engine.life]
  · intro t _
    rfl
  · intro retry member
    cases member

end Runs

def Sample.limitReached : List Event := Sample.oneRetry ++ [.preCbFlush 6, .outputReturn 6 .retry, .outputEvent 6]

end FluentBit
