import FluentBit.Engine.StepSimulation

/-! What stands behind the failures that a run records: a call that the
environment refused. -/

set_option autoImplicit false

namespace FluentBit

def Action.Caused (env : Env) (config : Config) : Action → Prop
  | .enqueueFailed o _ => env.Refuses (.enqueueAlloc o)
  | .flushFailed o _ =>
    config.isThreaded o = true ∧ env.Refuses (.poolFlush o) ∨
      config.isThreaded o = false ∧ (env.Refuses (.flushCreate o) ∨ env.Refuses (.pipeWrite o))
  | .taskCreateFailed _ => env.Refuses .eventChunkCreate
  | _ => True

variable {env : Env} {config : Config} {rules : Rules} {before after : Stage}

private theorem caused_release {t : TaskRef} {life : Life} (caused : ∀ action ∈ life.history, action.Caused env config)
    :
    ∀ action ∈ (life.release t).history, action.Caused env config := by
  rcases Life.release_cases t life with ⟨same, -⟩ | ⟨task, -, -, -, released⟩
  · rw [same]
    exact caused
  · rw [released]
    simpa [Action.Caused] using caused

theorem Move.caused (move : Move env config rules before after)
    (caused : ∀ action ∈ before.2.history, action.Caused env config) :
    ∀ action ∈ after.2.history, action.Caused env config := by
  cases move with
  | quiet quiet =>
    rw [quiet.history]
    exact caused
  | destroyed =>
    rw [Life.destroy_eq]
    exact caused
  | poolRefused _ threaded refused => simpa [Action.Caused, threaded, refused] using caused
  | createRefused _ direct refused | pipeRefused _ direct refused => simpa [Action.Caused, direct, refused] using caused
  | leaked refused | enqueueRefused refused => simpa [Action.Caused, refused] using caused
  | @finished t o life =>
    refine caused_release ?_
    rw [Life.retryClean_eq]
    exact caused
  | unschedulable | abandoned => exact caused_release caused
  | _ => simpa [Action.Caused] using caused

theorem Moves.caused (moves : Moves env config rules before after)
    (caused : ∀ action ∈ before.2.history, action.Caused env config) :
    ∀ action ∈ after.2.history, action.Caused env config := by
  induction moves with
  | refl => exact caused
  | tail _ move ih => exact move.caused ih

private theorem caused_reachable {admissible : Engine → Event → Prop} {onDisk : OnDisk} {engine : Engine}
    (path : Runs.Path (step env config) admissible (started onDisk) engine) :
    ∀ action ∈ engine.history, action.Caused env config := by
  have both := path.invariant
    (fun engine => Sound ([], engine.life) ∧ ∀ action ∈ engine.history, action.Caused env config)
    ⟨sound_started onDisk, by simp [started]⟩
    (fun engine event held _ =>
      ⟨held.1.run (step_moves held.1 event), Moves.caused (step_moves held.1 event) held.2⟩)
  exact both.2

/-! The user count of a task. Every flush and every queue entry holds one user;
`flb_output_task_singleplex_enqueue` leaves one behind when the entry cannot be
allocated, and a worker when it cannot create its flush. -/

open List Runs

variable {env : Env} {config : Config}

private theorem refusals_eq_zero {history : List Action} (caused : ∀ action ∈ history, action.Caused env config)
    (allocates : ∀ o, ¬env.Refuses (.enqueueAlloc o)) (t : TaskRef) : history.countP (Action.refuses t) = 0 := by
  rw [countP_eq_zero]
  intro action member refuses
  cases action with
  | enqueueFailed o t' => exact allocates o (caused _ member)
  | _ => cases refuses

/-- No worker fails to create the flush of a task that it has read. -/
def WorkersCreate (env : Env) (config : Config) : Prop :=
  ∀ o, config.isThreaded o = true → ¬env.Refuses (.flushCreate o)

section Skipped

variable {rules : Rules} {before after : Stage} (create : WorkersCreate env config)

include create

theorem Move.unskipped (move : Move env config rules before after)
    (unskipped : ∀ flush ∈ before.2.flushes, flush.phase ≠ .skipped) :
    ∀ flush ∈ after.2.flushes, flush.phase ≠ .skipped := by
  intro flush member
  cases move with
  | quiet quiet => exact unskipped flush (quiet.flushes ▸ member)
  | destroyed =>
    rw [Life.destroy_eq] at member
    exact unskipped flush member
  | phase listed skips =>
    obtain ⟨old, earlier, changed⟩ := Tally.mem_replace.mp member
    rw [← changed]
    split
    · intro skipped
      obtain ⟨o, threaded, refused⟩ := skips skipped
      exact create o threaded refused
    · exact unskipped old earlier
  | flushed =>
    rcases mem_append.mp member with old | new
    · exact unskipped flush old
    · rw [mem_singleton.mp new]
      nofun
  | result => exact unskipped flush (mem_of_mem_eraseP member)
  | finished =>
    rw [Life.release_eq, Life.retryClean_eq] at member
    exact unskipped flush member
  | unschedulable | abandoned =>
    rw [Life.release_eq] at member
    exact unskipped flush member
  | _ => exact unskipped flush member

theorem Moves.unskipped (moves : Moves env config rules before after)
    (unskipped : ∀ flush ∈ before.2.flushes, flush.phase ≠ .skipped) :
    ∀ flush ∈ after.2.flushes, flush.phase ≠ .skipped := by
  induction moves with
  | refl => exact unskipped
  | tail _ move ih => exact move.unskipped create ih

theorem outstanding_eq_flushes {admissible : Engine → Event → Prop} {onDisk : OnDisk} {engine : Engine}
    (path : Runs.Path (step env config) admissible (started onDisk) engine) : engine.outstanding = engine.flushes := by
  have both := path.invariant
    (fun engine => Sound ([], engine.life) ∧ ∀ flush ∈ engine.life.flushes, flush.phase ≠ .skipped)
    ⟨sound_started onDisk, by simp [started, Engine.life]⟩
    (fun engine event held _ =>
      ⟨held.1.run (step_moves held.1 event), Moves.unskipped create (step_moves held.1 event) held.2⟩)
  exact filter_eq_self.mpr fun flush flying => by simpa using both.2 flush flying

end Skipped

namespace Sample

def appendAndDispatch : List Event := [.append (logs [1]), .dispatch 0]

end Sample

open Nat Option Life

inductive TaskCall where
  | create (ic : InputChunk)
  | destroy (t : TaskRef) (del : Bool)

def TaskCall.run (env : Env) (config : Config) : TaskCall → Engine → Engine
  | .create ic, engine => (taskCreate env config ic engine).2
  | .destroy t del, engine => taskDestroy env config t del engine

structure SlotsInOrder (life : Life) : Prop where
  distinct : life.taskRefs.Nodup
  allocated : ∀ t ∈ life.taskRefs, t < life.nextRef
  slots : ∀ task ∈ life.tasks, life.tasksMap task.id = some task.ref
  owners : ∀ id t, life.tasksMap id = some t → ∃ task ∈ life.tasks, task.ref = t ∧ task.id = id

variable {env : Env} {config : Config}

namespace SlotsInOrder

variable {life : Life}

theorem create (inOrder : SlotsInOrder life) {task : Task} (fresh : task.ref = life.nextRef)
    (free : life.tasksMap task.id = none) : SlotsInOrder (life.create task) where
  distinct := by
    have new : task.ref ∉ life.taskRefs := by
      intro member
      have older := inOrder.allocated _ member
      rw [fresh] at older
      exact Nat.lt_irrefl _ older
    simp only [Life.taskRefs, Life.create, map_append, map_cons, map_nil]
    exact nodup_append.mpr ⟨inOrder.distinct, by simp, by
      intro t member t' single same
      rw [mem_singleton.mp single] at same
      exact new (same ▸ member)⟩
  allocated := by
    intro t member
    simp only [Life.taskRefs, Life.create, map_append, map_cons, map_nil, mem_append, mem_singleton] at member ⊢
    rcases member with old | rfl
    · exact lt_succ_of_lt (inOrder.allocated t old)
    · rw [fresh]
      exact lt_succ_self _
  slots := by
    intro other member
    simp only [Life.create, mem_append, mem_singleton] at member ⊢
    rcases member with old | rfl
    · have slot := inOrder.slots other old
      rw [if_neg]
      · exact slot
      · intro same
        rw [same, free] at slot
        cases slot
    · exact if_pos rfl
  owners := by
    intro id t taken
    simp only [Life.create] at taken
    split at taken
    · next same =>
      cases taken
      exact ⟨task, mem_append_right _ (mem_singleton_self _), rfl, same.symm⟩
    · obtain ⟨owner, listed, ref, slot⟩ := inOrder.owners id t taken
      exact ⟨owner, mem_append_left _ listed, ref, slot⟩

theorem destroy (inOrder : SlotsInOrder life) {task : Task} (live : task ∈ life.tasks) :
    SlotsInOrder (life.destroy task) := by
  rw [destroy_eq]
  constructor
  · exact inOrder.distinct.sublist (filter_sublist.map _)
  · intro t member
    exact inOrder.allocated t ((filter_sublist.map _).subset member)
  · intro other member
    obtain ⟨listed, different⟩ := Tally.mem_discard.mp member
    have slot := inOrder.slots other listed
    simp only
    rw [if_neg]
    · exact slot
    · intro same
      rw [same, inOrder.slots task live] at slot
      exact different (Option.some.inj slot).symm
  · intro id t taken
    simp only at taken
    split at taken
    · cases taken
    · next different =>
      obtain ⟨owner, listed, ref, slot⟩ := inOrder.owners id t taken
      refine ⟨owner, Tally.mem_discard.mpr ⟨listed, ?_⟩, ref, slot⟩
      intro same
      have identical : owner = task := inj_on_of_nodup_map inOrder.distinct listed live same
      rw [identical] at slot
      exact different slot.symm

theorem call {engine : Engine} (inOrder : SlotsInOrder engine.life)
    (completes : ¬env.Refuses .eventChunkCreate) (call : TaskCall) :
    SlotsInOrder (call.run env config engine).life := by
  cases call with
  | create ic =>
    rcases @taskCreate_effect env config engine inOrder.allocated ic with
      ⟨-, -, same | ⟨refused, -⟩⟩ | ⟨-, ⟨task, fresh, -, kept | undone⟩, -⟩
    · exact same ▸ inOrder
    · exact absurd refused completes
    · exact kept ▸ inOrder.create fresh.ref fresh.free
    · have created := inOrder.create fresh.ref fresh.free
      exact undone ▸ created.destroy (mem_append_right _ (mem_singleton_self _))
  | destroy t del =>
    simp only [TaskCall.run]
    cases found : engine.task? t with
    | none =>
      have shape : taskDestroy env config t del engine = { engine with fault := true } := by
        simp [taskDestroy, found]
      rw [shape]
      exact inOrder
    | some task =>
      rw [life_taskDestroy engine found]
      exact inOrder.destroy (mem_of_find?_eq_some found)

end SlotsInOrder

private theorem slotsInOrder_reachable (completes : ¬env.Refuses .eventChunkCreate) {onDisk : OnDisk} {engine : Engine}
    (path : Runs.Path (step env config) anyEvent (started onDisk) engine) : SlotsInOrder engine.life := by
  have sound := sound_reachable path
  refine ⟨sound.distinct, sound.allocated, sound.slots, fun id t taken => ?_⟩
  obtain ⟨-, owned | failed⟩ := sound.owners id t taken
  · exact owned
  · exact absurd (caused_reachable path _ failed) completes

/-- In every run of the engine followed by any calls of `flb_task_create` and
`flb_task_destroy`, a slot is taken if and only if a live task has its id, ids
are distinct, and a call that fails with an error leaves slots and chunks alone. -/
theorem slots_iff_live_tasks (completes : ¬env.Refuses .eventChunkCreate) {onDisk : OnDisk} {ran engine : Engine}
    (path : Runs.Path (step env config) anyEvent (started onDisk) ran)
    (calls : Runs.Path (TaskCall.run env config) anyEvent ran engine) :
    (∀ id, (engine.tasksMap id).isSome = true ↔ ∃ task ∈ engine.tasks, task.id = id) ∧
      (engine.tasks.map (·.id)).Nodup ∧ ∀ ic after, taskCreate env config ic engine = (.failed true, after) →
        after.tasksMap = engine.tasksMap ∧ after.storage = engine.storage := by
  have inOrder : SlotsInOrder engine.life :=
    calls.invariant (fun engine => SlotsInOrder engine.life) (slotsInOrder_reachable completes path)
      (fun engine call inOrder _ => inOrder.call completes call)
  refine ⟨fun id => ⟨?_, ?_⟩, ?_, ?_⟩
  · intro taken
    obtain ⟨t, slot⟩ := isSome_iff_exists.mp taken
    obtain ⟨task, live, -, same⟩ := inOrder.owners id t slot
    exact ⟨task, live, same⟩
  · rintro ⟨task, live, rfl⟩
    exact isSome_iff_exists.mpr ⟨task.ref, inOrder.slots task live⟩
  · have pairwise : engine.tasks.Pairwise fun left right => left.ref ≠ right.ref := by
      have distinct := inOrder.distinct
      rwa [taskRefs, nodup_iff_pairwise_ne, pairwise_map] at distinct
    rw [nodup_iff_pairwise_ne, pairwise_map]
    refine pairwise.imp_of_mem fun leftLive rightLive different same => different ?_
    have slot := inOrder.slots _ leftLive
    rw [same, inOrder.slots _ rightLive] at slot
    exact (Option.some.inj slot).symm
  · intro ic after failed
    rcases @taskCreate_effect env config engine inOrder.allocated ic with
      ⟨-, storage, same | ⟨refused, -⟩⟩ | ⟨succeeded, -⟩
    · rw [failed] at storage same
      exact ⟨congrArg tasksMap same, storage⟩
    · exact absurd refused completes
    · rw [failed] at succeeded
      exact absurd rfl succeeded

open Sample in
theorem slots_iff_live_tasks_dispatch : ¬willing.Refuses .eventChunkCreate ∧
      ((Runs.after (step willing (Sample.config .mem [output 0] (by decide))) (started noDisk)
        [.append (logs [1]), .dispatch 0]).tasks.map (·.id)).Nodup := by
  have completes := willing_never_refuses .eventChunkCreate
  have path := reached (step willing (Sample.config .mem [output 0] (by decide))) (started noDisk)
    [.append (logs [1]), .dispatch 0]
  exact ⟨completes, (slots_iff_live_tasks completes path .start).2.1⟩

open Sample in
/-- The slot of a task whose event chunk could not be allocated stays taken. -/
theorem slot_of_failed_task_stays : ¬∀ (env : Env) (config : Config) (onDisk : OnDisk) (engine : Engine),
      Runs.Path (step env config) anyEvent (started onDisk) engine →
        ∀ id, (engine.tasksMap id).isSome = true ↔ ∃ task ∈ engine.tasks, task.id = id := by
  intro holds
  let refusing := Sample.env fun site _ => decide (site = .eventChunkCreate)
  have path := reached (step refusing (Sample.config .mem [output 0] (by decide))) (started noDisk)
    [.append (logs [1]), .dispatch 0]
  obtain ⟨task, live, -⟩ := (holds _ _ _ _ path 0).mp (by decide +kernel)
  have none : (Runs.after (step refusing (Sample.config .mem [output 0] (by decide))) (started noDisk)
      [.append (logs [1]), .dispatch 0]).tasks = [] := by decide +kernel
  rw [none] at live
  cases live

end FluentBit
