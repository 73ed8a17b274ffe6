import FluentBit.Storage.AppendAccounts
import FluentBit.Storage.BacklogAccounts

/-! How much room `flb_input_chunk_place_new_chunk` makes: for each output that is over its limit
either as much as the chunk that receives the data takes, or all there is to release. -/

set_option autoImplicit false

namespace FluentBit.Room

open List Nat
open ChunkAccounts QueueChunks

def lets (config : Config) (i : InputId) (o : OutId) (task : Task) : Bool :=
  decide (task.users = 0) ||
    (decide (config.storageInputPlugin ≠ some i) && decide (taskGetRouteStatus task o = .inactive))

def releasable (config : Config) (engine : Engine) (o : OutId) (ic : InputChunk) : Bool :=
  match ic.task with
  | none => true
  | some t => (engine.task? t).any (lets config ic.ins o)

/-- The chunk is one of those `flb_input_chunk_release_space_compound` releases for the output. -/
def offered (config : Config) (new : ChunkRef) (engine : Engine) (o : OutId) (ic : InputChunk) : Bool :=
  decide (ic.ref ≠ new) && ic.routesTo o && config.inputs.any (·.id = ic.ins) && releasable config engine o ic

def queuedBytes (o : OutId) (queues : List SbOutQueue) : Nat :=
  (queues.map fun queue => if queue.ins = o then (queue.chunks.map (·.size.toNat)).sum else 0).sum

def reserve (config : Config) (new : ChunkRef) (o : OutId) (engine : Engine) : Nat :=
  (engine.storage.chunks.map fun ic => if offered config new engine o ic then ic.chunk.realSize else 0).sum +
    queuedBytes o engine.storage.backlog.queues

def used (o : OutId) (engine : Engine) : Nat :=
  total o (books engine).accounts + queuedBytes o engine.storage.backlog.queues

/-! ### Receding -/

structure Sound (engine : Engine) : Prop where
  distinct : (engine.storage.chunks.map (·.ref)).Nodup
  tied : ∀ ic ∈ engine.storage.chunks, ∀ t task, ic.task = some t → engine.task? t = some task → task.ic = ic.ref
  backlog : BacklogAccounts.Kept engine.storage
  single : (engine.storage.backlog.queues.map (·.ins)).Nodup

structure Recedes (config : Config) (before after : Engine) : Prop where
  chunks : ∀ ic' ∈ after.storage.chunks, ∃ ic ∈ before.storage.chunks, Remains ic ic' ∧ ic'.task = ic.task ∧
    ∀ o, ic'.routesTo o = true → releasable config after o ic' = releasable config before o ic
  queued : ∀ o, queuedBytes o after.storage.backlog.queues ≤ queuedBytes o before.storage.backlog.queues

variable {required left : Int}

section

variable {env : Env} {config : Config} {engine before after : Engine} {new c : ChunkRef} {o : OutId}

theorem Recedes.refl (engine : Engine) : Recedes config engine engine where
  chunks := fun ic listed => ⟨ic, listed, .refl ic, rfl, fun _ _ => rfl⟩
  queued := fun _ => Nat.le_refl _

variable {first second third : Engine} {ic ic' old : InputChunk} {queues : List SbOutQueue}

theorem Recedes.trans (left : Recedes config first second) (right : Recedes config second third) :
    Recedes config first third where
  chunks := by
    intro ic listed
    obtain ⟨middle, middleListed, later, laterTask, laterLets⟩ := right.chunks ic listed
    obtain ⟨old, oldListed, earlier, earlierTask, earlierLets⟩ := left.chunks middle middleListed
    refine ⟨old, oldListed, earlier.trans later, laterTask.trans earlierTask, fun o routed => ?_⟩
    exact (laterLets o routed).trans (earlierLets o (later.routes o routed))
  queued := fun o => (right.queued o).trans (left.queued o)

/-- The task of a chunk that is left is as it was, or its route to an output was marked that makes no
difference to what can be released. -/
def Likewise (config : Config) (before after : Engine) (ic ic' : InputChunk) : Prop :=
  ∀ t, ic.task = some t → after.task? t = before.task? t ∨
    ∃ task o, before.task? t = some task ∧
      after.task? t = some { task with routes := setRouteStatus o .dropped task.routes } ∧
      (config.storageInputPlugin = some ic.ins ∨ ic'.routesTo o = false)

private theorem getRouteStatus_apart {o o' : OutId} (apart : o' ≠ o) (routes : List TaskRoute) :
    ((setRouteStatus o .dropped routes).find? (·.out = o')) = routes.find? (·.out = o') := by
  induction routes with
  | nil => rfl
  | cons route routes ih =>
    unfold setRouteStatus
    split
    next here =>
      have other : decide (route.out = o') = false := decide_eq_false fun same => apart (same.symm.trans here)
      rw [List.find?_cons, List.find?_cons]
      simp [other]
    · rw [List.find?_cons, List.find?_cons, ih]

theorem Likewise.releasable (likewise : Likewise config before after ic ic') (remains : Remains ic ic')
    (task : ic'.task = ic.task) (routed : ic'.routesTo o = true) :
    releasable config after o ic' = releasable config before o ic := by
  unfold Room.releasable
  rw [task, remains.ins]
  cases owner : ic.task with
  | none => rfl
  | some t =>
    simp only
    cases likewise t owner with
    | inl same => rw [same]
    | inr marked =>
      obtain ⟨old, o', known, left, harmless⟩ := marked
      rw [known, left]
      simp only [Option.any_some, lets]
      cases harmless with
      | inl whole => simp [whole]
      | inr gone =>
        have apart : o ≠ o' := by
          intro same
          rw [same, gone] at routed
          cases routed
        unfold taskGetRouteStatus
        rw [getRouteStatus_apart apart]

theorem Sound.recede (sound : Sound before) (distinct : (after.storage.chunks.map (·.ref)).Nodup)
    (chunks : ∀ ic' ∈ after.storage.chunks, ∃ ic ∈ before.storage.chunks, Remains ic ic' ∧ ic'.task = ic.task ∧
      Likewise config before after ic ic') (backlog : after.storage.backlog = before.storage.backlog)
    (sizes : after.storage.fsBacklogChunksSize = before.storage.fsBacklogChunksSize) :
    Sound after ∧ Recedes config before after := by
  constructor
  · constructor
    · exact distinct
    · intro ic' listed t task owner live
      obtain ⟨ic, oldListed, remains, same, likewise⟩ := chunks ic' listed
      rw [same] at owner
      rw [remains.ref]
      cases likewise t owner with
      | inl unchanged =>
        rw [unchanged] at live
        exact sound.tied ic oldListed t task owner live
      | inr marked =>
        obtain ⟨old, o', known, left, -⟩ := marked
        rw [left] at live
        cases live
        exact sound.tied ic oldListed t old owner known
    · exact sound.backlog.congr backlog sizes
    · rw [backlog]
      exact sound.single
  · constructor
    · intro ic' listed
      obtain ⟨ic, oldListed, remains, same, likewise⟩ := chunks ic' listed
      exact ⟨ic, oldListed, remains, same, fun o routed => likewise.releasable remains same routed⟩
    · intro o
      rw [backlog]

theorem Sound.thin (sound : Sound before) (chunks : after.storage.chunks.Sublist before.storage.chunks)
    (tasks : ∀ ic ∈ after.storage.chunks, ∀ t, ic.task = some t → after.task? t = before.task? t)
    (backlog : after.storage.backlog = before.storage.backlog)
    (sizes : after.storage.fsBacklogChunksSize = before.storage.fsBacklogChunksSize) :
    Sound after ∧ Recedes config before after := by
  apply sound.recede (sound.distinct.sublist (chunks.map _)) _ backlog sizes
  intro ic listed
  exact ⟨ic, chunks.subset listed, .refl ic, rfl, fun t owner => .inl (tasks ic listed t owner)⟩

private theorem not_listed_inputChunkDestroy (del : Bool) :
    ∀ ic ∈ (inputChunkDestroy env config c del engine).storage.chunks, ic.ref ≠ c := by
  unfold inputChunkDestroy
  cases found : engine.storage.chunk? c with
  | none =>
    intro ic listed same
    exact absurd (decide_eq_true same) (List.find?_eq_none.mp found ic listed)
  | some old => exact fun ic listed => (Tally.mem_discard.mp listed).2

private theorem backlog_inputChunkDestroy (c : ChunkRef) (del : Bool) (engine : Engine) :
    (inputChunkDestroy env config c del engine).storage.backlog = engine.storage.backlog ∧
      (inputChunkDestroy env config c del engine).storage.fsBacklogChunksSize = engine.storage.fsBacklogChunksSize ∧
      (inputChunkDestroy env config c del engine).tasks = engine.tasks := by
  unfold inputChunkDestroy
  cases engine.storage.chunk? c with
  | none => exact ⟨rfl, rfl, rfl⟩
  | some ic =>
    have untouched : ∀ storage : Storage, (htDelPtr ic.ins ic.eventType ic.chunk.tag c storage).backlog =
        storage.backlog ∧ (htDelPtr ic.ins ic.eventType ic.chunk.tag c storage).fsBacklogChunksSize =
        storage.fsBacklogChunksSize := by
      intro storage
      unfold htDelPtr
      split
      · exact ⟨rfl, rfl⟩
      · exact ⟨rfl, rfl⟩
    simp only [Engine.withStorage, unlinkChunk]
    split
    · exact ⟨(untouched _).1, (untouched _).2, rfl⟩
    · exact ⟨rfl, rfl, rfl⟩

theorem Sound.destroy (sound : Sound engine) (c : ChunkRef) (del : Bool) :
    Sound (inputChunkDestroy env config c del engine) ∧
      Recedes config engine (inputChunkDestroy env config c del engine) := by
  obtain ⟨backlog, sizes, tasks⟩ := @backlog_inputChunkDestroy env config c del engine
  apply sound.thin (destroy_sublist del) _ backlog sizes
  intro ic _ t _
  unfold Engine.task?
  rw [tasks]

private theorem tasks_foldl_taskRetryDestroy (refs : List RetryRef) :
    (refs.foldl (fun engine r => taskRetryDestroy r engine) engine).tasks = engine.tasks :=
  foldl_taskRetryDestroy Engine.tasks (fun _ _ _ _ => rfl) refs

private theorem backlog_inputChunkSetLimits (i : InputId) (storage : Storage) :
    (inputChunkSetLimits config i storage).backlog = storage.backlog ∧
      (inputChunkSetLimits config i storage).fsBacklogChunksSize = storage.fsBacklogChunksSize := by
  unfold inputChunkSetLimits
  simp only
  split
  · split
    · exact ⟨rfl, rfl⟩
    · exact ⟨rfl, rfl⟩
  · split
    · exact ⟨rfl, rfl⟩
    · exact ⟨rfl, rfl⟩

theorem Sound.taskDestroy (sound : Sound engine) {t : TaskRef} {task : Task} (live : engine.task? t = some task) :
    Sound (FluentBit.taskDestroy env config t true engine) ∧
      Recedes config engine (FluentBit.taskDestroy env config t true engine) ∧
      ∀ ic ∈ (FluentBit.taskDestroy env config t true engine).storage.chunks, ic.ref ≠ task.ic := by
  have sublist := @taskDestroy_sublist env config t true engine
  have gone : ∀ ic ∈ (FluentBit.taskDestroy env config t true engine).storage.chunks, ic.ref ≠ task.ic := by
    unfold FluentBit.taskDestroy
    simp only [live, Engine.withStorage, chunks_inputChunkSetLimits, storage_foldl_taskRetryDestroy]
    exact not_listed_inputChunkDestroy true
  have shape : (FluentBit.taskDestroy env config t true engine).storage.backlog = engine.storage.backlog ∧
      (FluentBit.taskDestroy env config t true engine).storage.fsBacklogChunksSize =
        engine.storage.fsBacklogChunksSize ∧
      (FluentBit.taskDestroy env config t true engine).tasks = Tally.discard Task.ref t engine.tasks := by
    unfold FluentBit.taskDestroy
    simp only [live, Engine.withStorage, backlog_inputChunkSetLimits, storage_foldl_taskRetryDestroy,
      tasks_foldl_taskRetryDestroy, backlog_inputChunkDestroy]
    exact ⟨rfl, rfl, rfl⟩
  obtain ⟨backlog, sizes, tasks⟩ := shape
  obtain ⟨left, recedes⟩ := @Sound.thin config engine _ sound sublist (by
    intro ic listed t' owner
    by_cases same : t' = t
    · rw [same] at owner
      exact absurd (sound.tied ic (sublist.subset listed) t task owner live).symm (gone ic listed)
    · unfold Engine.task?
      rw [tasks]
      exact Tally.find?_discard_other same) backlog sizes
  exact ⟨left, recedes, gone⟩

/-! ### Routes that go -/

private theorem inputChunkDropTaskRoute_going {t : Option TaskRef} {dropped : Nat} {marked : Engine}
    (result : inputChunkDropTaskRoute t o engine = (some dropped, marked)) :
    marked = engine ∨ ∃ r task, t = some r ∧ engine.task? r = some task ∧ task.users ≠ 0 ∧
      marked = taskSetRouteStatus r o .dropped engine := by
  unfold inputChunkDropTaskRoute at result
  cases t with
  | none =>
    cases result
    exact .inl rfl
  | some r =>
    cases live : engine.task? r with
    | none =>
      simp only [live] at result
      cases result
    | some task =>
      simp only [live] at result
      split at result
      · cases result
        exact .inl rfl
      · next busy =>
        split at result
        · cases result
          exact .inr ⟨r, task, rfl, live, busy, rfl⟩
        · cases result

private theorem inputChunkDropTaskRoute_kept (result : inputChunkDropTaskRoute ic.task o engine = (none, after)) :
    after.storage = engine.storage ∧ after.tasks = engine.tasks ∧ releasable config engine o ic = false := by
  unfold inputChunkDropTaskRoute at result
  unfold releasable
  cases owner : ic.task with
  | none =>
    simp only [owner] at result
    cases result
  | some r =>
    simp only [owner] at result
    simp only
    cases live : engine.task? r with
    | none =>
      simp only [live] at result
      cases result
      exact ⟨rfl, rfl, rfl⟩
    | some task =>
      simp only [live] at result
      split at result
      · cases result
      · next busy =>
        split at result
        · cases result
        · next taken =>
          cases result
          refine ⟨rfl, rfl, ?_⟩
          rw [Option.any_some]
          simp [lets, decide_eq_false busy, decide_eq_false taken]

theorem Sound.marked (sound : Sound engine) (member : old ∈ engine.storage.chunks) {r : TaskRef} {task : Task}
    (owner : old.task = some r) (live : engine.task? r = some task) (listed : ic ∈ engine.storage.chunks)
    {t : TaskRef} (its : ic.task = some t) :
    (taskSetRouteStatus r o .dropped engine).task? t = engine.task? t ∧ ic.ref ≠ old.ref ∨
      ic = old ∧ engine.task? t = some task ∧ (taskSetRouteStatus r o .dropped engine).task? t =
        some { task with routes := setRouteStatus o .dropped task.routes } := by
  have kept : ∀ task : Task, Task.ref { task with routes := setRouteStatus o .dropped task.routes } = task.ref :=
    fun _ => rfl
  by_cases same : t = r
  · rw [same] at its ⊢
    have ref := (sound.tied ic listed r task its live).symm.trans (sound.tied old member r task owner live)
    have equal : ic = old := inj_on_of_nodup_map sound.distinct listed member ref
    exact .inr ⟨equal, live, Tally.find?_replace kept live⟩
  · refine .inl ⟨Tally.find?_replace_other kept same, fun ref => ?_⟩
    have equal : ic = old := inj_on_of_nodup_map sound.distinct listed member ref
    rw [equal, owner] at its
    cases its
    exact same rfl

theorem Sound.dropRoute (sound : Sound engine) {old : InputChunk} (found : engine.storage.chunk? c = some old)
    {dropped : Nat} {marked : Engine}
    (result : inputChunkDropTaskRoute old.task o engine = (some dropped, marked)) (size : Int) :
    Sound (marked.withStorage (FluentBit.dropRoute c o size)) ∧
      Recedes config engine (marked.withStorage (FluentBit.dropRoute c o size)) ∧
      (∀ ic ∈ (marked.withStorage (FluentBit.dropRoute c o size)).storage.chunks, ic.ref = c → ic.routesTo o = false) ∧
      ∃ ic ∈ (marked.withStorage (FluentBit.dropRoute c o size)).storage.chunks, ic.ref = c ∧ ic.task = old.task := by
  obtain ⟨member, ref⟩ := Storage.chunk?_some found
  have storage : marked.storage = engine.storage := by
    cases inputChunkDropTaskRoute_going result with
    | inl same => rw [same]
    | inr mark =>
      obtain ⟨r, task, -, -, -, rfl⟩ := mark
      rfl
  have shape : ∀ ic' ∈ (marked.withStorage (FluentBit.dropRoute c o size)).storage.chunks,
      ∃ ic ∈ engine.storage.chunks,
        (if ic.ref = c then { ic with routesMask := ic.routesMask.clearBit o } else ic) = ic' := by
    intro ic' listed
    change ic' ∈ Tally.replace InputChunk.ref c _ marked.storage.chunks at listed
    rw [storage] at listed
    exact Tally.mem_replace.mp listed
  have cleared : ∀ mask : RoutesMask, (mask.clearBit o).getBit o = false := by
    intro mask
    rw [getBit_clearBit_out]
    simp
  have refs : (marked.withStorage (FluentBit.dropRoute c o size)).storage.chunks.map (·.ref) =
      engine.storage.chunks.map (·.ref) := by
    rw [← storage]
    exact Tally.map_replace_of_fixed fun _ => rfl
  have receded := @Sound.recede config engine (marked.withStorage (FluentBit.dropRoute c o size)) sound (by
      rw [refs]
      exact sound.distinct) (by
      intro ic' listed
      obtain ⟨ic, oldListed, rfl⟩ := shape ic' listed
      refine ⟨ic, oldListed, ?_, ?_, ?_⟩
      · split
        · refine ⟨rfl, rfl, rfl, rfl, fun o' routed => ?_⟩
          have both : (ic.routesMask.clearBit o).getBit o' = true := routed
          rw [getBit_clearBit_out] at both
          exact (Bool.and_eq_true_iff.mp both).1
        · exact .refl ic
      · split
        · rfl
        · rfl
      · intro t its
        cases inputChunkDropTaskRoute_going result with
        | inl same =>
          rw [same]
          exact .inl rfl
        | inr mark =>
          obtain ⟨r, task, owner, live, -, rfl⟩ := mark
          cases sound.marked member owner live (o := o) oldListed its with
          | inl other => exact .inl other.1
          | inr own =>
            obtain ⟨equal, known, left⟩ := own
            refine .inr ⟨task, o, known, left, .inr ?_⟩
            rw [equal, if_pos ref]
            exact cleared old.routesMask) (by
      change marked.storage.backlog = engine.storage.backlog
      rw [storage]) (by
      change marked.storage.fsBacklogChunksSize = engine.storage.fsBacklogChunksSize
      rw [storage])
  refine ⟨receded.1, receded.2, fun ic' listed named => ?_, ?_⟩
  · obtain ⟨ic, -, rfl⟩ := shape ic' listed
    by_cases here : ic.ref = c
    · rw [if_pos here]
      exact cleared ic.routesMask
    · rw [if_neg here] at named
      exact absurd named here
  · rw [← storage] at member
    exact ⟨_, Tally.mem_replace.mpr ⟨old, member, if_pos ref⟩, ref, rfl⟩

theorem Sound.markWhole (sound : Sound engine) {old : InputChunk} (member : old ∈ engine.storage.chunks)
    (whole : config.storageInputPlugin = some old.ins) {dropped : Nat} {marked : Engine}
    (result : inputChunkDropTaskRoute old.task o engine = (some dropped, marked)) :
    Sound marked ∧ Recedes config engine marked ∧ marked.storage = engine.storage := by
  cases inputChunkDropTaskRoute_going result with
  | inl same =>
    rw [same]
    exact ⟨sound, .refl engine, rfl⟩
  | inr mark =>
    obtain ⟨r, task, owner, live, -, rfl⟩ := mark
    have receded := @Sound.recede config engine (taskSetRouteStatus r o .dropped engine) sound sound.distinct (by
        intro ic listed
        refine ⟨ic, listed, .refl ic, rfl, fun t its => ?_⟩
        cases sound.marked member owner live (o := o) listed its with
        | inl other => exact .inl other.1
        | inr own =>
          obtain ⟨rfl, known, left⟩ := own
          exact .inr ⟨task, o, known, left, .inl whole⟩) rfl rfl
    exact ⟨receded.1, receded.2, rfl⟩

private theorem tasks_countDroppedRecords : (countDroppedRecords env o old engine).tasks = engine.tasks := by
  unfold countDroppedRecords
  cases old.task with
  | none => rfl
  | some t =>
    simp only
    split
    · rfl
    · rfl

theorem Sound.counting (sound : Sound engine) (dropped : Nat) (old : InputChunk) :
    Sound (if dropped = 0 then countDroppedRecords env o old engine else engine) ∧
      Recedes config engine (if dropped = 0 then countDroppedRecords env o old engine else engine) ∧
      (if dropped = 0 then countDroppedRecords env o old engine else engine).storage = engine.storage := by
  split
  · have storage := @storage_countDroppedRecords env o old engine
    have receded := @Sound.thin config engine (countDroppedRecords env o old engine) sound
      (by rw [storage]) (fun _ _ _ _ => by
        unfold Engine.task?
        rw [tasks_countDroppedRecords]) (by rw [storage]) (by rw [storage])
    exact ⟨receded.1, receded.2, storage⟩
  · exact ⟨sound, .refl engine, rfl⟩

theorem Sound.destroyReleased (sound : Sound engine) {old : InputChunk}
    (known : ∃ ic ∈ engine.storage.chunks, ic.ref = old.ref ∧ ic.task = old.task) :
    Sound (FluentBit.destroyReleased env config old engine).2 ∧
      Recedes config engine (FluentBit.destroyReleased env config old engine).2 ∧
      ((FluentBit.destroyReleased env config old engine).1 = true →
        ∀ ic ∈ (FluentBit.destroyReleased env config old engine).2.storage.chunks, ic.ref ≠ old.ref) := by
  unfold FluentBit.destroyReleased
  cases owner : old.task with
  | none =>
    obtain ⟨left, recedes⟩ := @Sound.destroy env config engine sound old.ref true
    exact ⟨left, recedes, fun _ => not_listed_inputChunkDestroy true⟩
  | some t =>
    simp only
    cases live : engine.task? t with
    | none =>
      have receded := @Sound.thin config engine { engine with fault := true } sound (.refl _)
        (fun _ _ _ _ => rfl) rfl rfl
      exact ⟨receded.1, receded.2, fun never => by cases never⟩
    | some task =>
      simp only
      split
      · obtain ⟨left, recedes, gone⟩ := @Sound.taskDestroy env config engine sound t task live
        refine ⟨left, recedes, fun _ ic listed => ?_⟩
        obtain ⟨mine, member, ref, same⟩ := known
        rw [← ref, ← sound.tied mine member t task (same.trans owner) live]
        exact gone ic listed
      · exact ⟨sound, .refl engine, fun never => by cases never⟩

def Settled (config : Config) (new : ChunkRef) (o : OutId) (c : ChunkRef) (engine : Engine) : Prop :=
  ∀ ic ∈ engine.storage.chunks, ic.ref = c → ic.ref ≠ new → ic.routesTo o = true → releasable config engine o ic = false

theorem Recedes.settled (recedes : Recedes config before after) (settled : Settled config new o c before) :
    Settled config new o c after := by
  intro ic' listed named different routed
  obtain ⟨ic, oldListed, remains, -, same⟩ := recedes.chunks ic' listed
  rw [remains.ref] at named different
  rw [same o routed]
  exact settled ic oldListed named different (remains.routes o routed)

def Counted (new : ChunkRef) (o : OutId) (engine : Engine) : Prop :=
  ∀ ic ∈ engine.storage.chunks, ic.ref ≠ new → ic.routesTo o = true → ic.fsCounted = true ∧ ic.chunk.realSize ≠ 0

theorem Recedes.counted (recedes : Recedes config before after) (counted : Counted new o before) :
    Counted new o after := by
  intro ic' listed different routed
  obtain ⟨ic, oldListed, remains, -, -⟩ := recedes.chunks ic' listed
  rw [remains.fsCounted, remains.chunk]
  rw [remains.ref] at different
  exact counted ic oldListed different (remains.routes o routed)

private theorem charge_le_of_remains (remains : Remains ic ic') :
    (account ic').charge o ≤ (account ic).charge o := by
  unfold Account.charge account
  by_cases counted : (ic'.routesMask.getBit o && ic'.fsCounted) = true
  · obtain ⟨routed, flag⟩ := Bool.and_eq_true_iff.mp counted
    have before : (ic.routesMask.getBit o && ic.fsCounted) = true :=
      Bool.and_eq_true_iff.mpr ⟨remains.routes o routed, remains.fsCounted ▸ flag⟩
    rw [if_pos counted, if_pos before, remains.chunk]
  · rw [if_neg counted]
    exact Nat.zero_le _

private theorem total_chunks :
    total o (books engine).accounts = (engine.storage.chunks.map fun ic => (account ic).charge o).sum := by
  unfold total books
  rw [map_map]
  rfl

theorem Recedes.total_le (recedes : Recedes config before after) (sound : Sound after) (o : OutId) :
    total o (books after).accounts ≤ total o (books before).accounts := by
  rw [total_chunks, total_chunks]
  apply Tally.sum_le_sum sound.distinct
  intro ic' listed _
  obtain ⟨ic, oldListed, remains, -⟩ := recedes.chunks ic' listed
  exact ⟨ic, oldListed, remains.ref.symm, charge_le_of_remains remains⟩

theorem Recedes.freed (recedes : Recedes config before after) (soundBefore : Sound before) (sound : Sound after)
    (member : old ∈ before.storage.chunks) (routed : old.routesTo o = true) (counted : old.fsCounted = true)
    (gone : ∀ ic ∈ after.storage.chunks, ic.ref = old.ref → ic.routesTo o = false) :
    old.chunk.realSize + total o (books after).accounts ≤ total o (books before).accounts := by
  have others := @Tally.sum_discard _ _ _ InputChunk.ref old.ref before.storage.chunks Nat _
    (fun ic => (account ic).charge o) soundBefore.distinct old member rfl
  have size : (account old).charge o = old.chunk.realSize := if_pos (Bool.and_eq_true_iff.mpr ⟨routed, counted⟩)
  rw [total_chunks, total_chunks, ← others, size, Nat.add_comm]
  apply Nat.add_le_add_right
  apply Tally.sum_le_sum sound.distinct
  intro ic' listed charged
  obtain ⟨ic, oldListed, remains, -⟩ := recedes.chunks ic' listed
  refine ⟨ic, Tally.mem_discard.mpr ⟨oldListed, fun same => charged ?_⟩, remains.ref.symm, charge_le_of_remains remains⟩
  have unrouted := gone ic' listed (remains.ref.trans same)
  exact if_neg (by
    intro both
    have bit : ic'.routesTo o = true := (Bool.and_eq_true_iff.mp both).1
    rw [unrouted] at bit
    cases bit)

/-! ### One chunk -/

structure Freed (config : Config) (o : OutId) (bytes : Int) (before after : Engine) : Prop where
  sound : Sound after
  recedes : Recedes config before after
  nonnegative : 0 ≤ bytes
  bytes_le : bytes + used o after ≤ used o before

theorem Freed.none (sound : Sound engine) : Freed config o 0 engine engine :=
  ⟨sound, .refl engine, Int.le_refl 0, by rw [Int.zero_add]⟩

theorem Freed.trans {some more : Int} (left : Freed config o some first second)
    (right : Freed config o more second third) : Freed config o (some + more) first third where
  sound := right.sound
  recedes := left.recedes.trans right.recedes
  nonnegative := Int.add_nonneg left.nonnegative right.nonnegative
  bytes_le := by
    have earlier := left.bytes_le
    have later := right.bytes_le
    omega

section

variable (recedes : Recedes config before after)
include recedes

theorem Recedes.used_le (sound : Sound after) (o : OutId) : used o after ≤ used o before :=
  Nat.add_le_add (recedes.total_le sound o) (recedes.queued o)

theorem Freed.nothing (sound : Sound after) : Freed config o 0 before after := by
  refine ⟨sound, recedes, Int.le_refl 0, ?_⟩
  rw [Int.zero_add]
  exact Int.ofNat_le.mpr (recedes.used_le sound o)

theorem Freed.chunk (soundBefore : Sound before) (sound : Sound after) (member : old ∈ before.storage.chunks)
    (routed : old.routesTo o = true) (counted : old.fsCounted = true ∧ old.chunk.realSize ≠ 0)
    (gone : ∀ ic ∈ after.storage.chunks, ic.ref = old.ref → ic.routesTo o = false) :
    Freed config o (inputChunkGetRealSize old) before after := by
  rw [inputChunkGetRealSize_eq, if_neg counted.2]
  refine ⟨sound, recedes, Int.natCast_nonneg _, ?_⟩
  have total := recedes.freed soundBefore sound member routed counted.1 gone
  have queued := recedes.queued o
  unfold used
  omega

end

private theorem settled_of_missing (missing : engine.storage.chunk? c = none) : Settled config new o c engine := by
  intro ic listed named
  exact absurd (decide_eq_true named) (List.find?_eq_none.mp missing ic listed)

theorem Sound.releaseChunk (sound : Sound engine) (counted : Counted new o engine) (scope : ReleaseScope)
    (whole : scope = .wholeChunk → ∀ ic ∈ engine.storage.chunks, ic.ref = c →
      config.storageInputPlugin = some ic.ins) {bytes : Option Int} {after : Engine}
    (result : FluentBit.releaseChunk env config new o scope c engine = (bytes, after)) :
    Freed config o (bytes.getD 0) engine after ∧ (scope = .onlyRoute → Settled config new o c after) := by
  unfold FluentBit.releaseChunk at result
  cases found : engine.storage.chunk? c with
  | none =>
    rw [found] at result
    cases result
    exact ⟨.none sound, fun _ => settled_of_missing found⟩
  | some old =>
    obtain ⟨member, rfl⟩ := Storage.chunk?_some found
    have only : ∀ ic ∈ engine.storage.chunks, ic.ref = old.ref → ic = old :=
      fun ic listed same => inj_on_of_nodup_map sound.distinct listed member same
    simp only [found] at result
    split at result
    · next passed =>
      cases result
      refine ⟨.none sound, fun _ ic listed named different routed => ?_⟩
      cases only ic listed named
      simp only [inputChunkSafeDelete, routed, different, ne_eq, not_false_eq_true, decide_true, Bool.and_self,
        Bool.not_true, Bool.or_self] at passed
      cases passed
    · next passes =>
      simp only [Bool.or_eq_true, not_or, Bool.not_eq_true, Bool.not_eq_false', inputChunkSafeDelete,
        Bool.and_eq_true, decide_eq_true_eq] at passes
      obtain ⟨routed, different, -⟩ := passes
      have flag := counted old member different routed
      rcases dropped : inputChunkDropTaskRoute old.task o engine with ⟨_ | count, marked⟩
      · rw [dropped] at result
        cases result
        obtain ⟨storage, tasks, stuck⟩ := inputChunkDropTaskRoute_kept dropped
        have receded := @Sound.thin config engine after sound (by rw [storage]) (fun _ _ _ _ => by
            unfold Engine.task?
            rw [tasks]) (by rw [storage]) (by rw [storage])
        refine ⟨.nothing receded.2 receded.1, fun _ => receded.2.settled ?_⟩
        intro ic listed named _ _
        rw [only ic listed named]
        exact stuck
      · rw [dropped] at result
        cases scope with
        | onlyRoute =>
          simp only at result
          obtain ⟨soundLess, less, cleared, there⟩ :=
            @Sound.dropRoute config engine old.ref o sound old found count marked dropped
              (inputChunkGetRealSize old)
          obtain ⟨soundCounted, counts, storage⟩ := @Sound.counting env config _ o soundLess count old
          rw [← storage] at cleared there
          generalize (if count = 0 then countDroppedRecords env o old
            (marked.withStorage (FluentBit.dropRoute old.ref o (inputChunkGetRealSize old)))
            else marked.withStorage (FluentBit.dropRoute old.ref o (inputChunkGetRealSize old))) = left
            at result soundCounted counts cleared there
          have done : ∀ later, Sound later → Recedes config left later →
              Freed config o (inputChunkGetRealSize old) engine later ∧ Settled config new o old.ref later := by
            intro later soundLater recedes
            have gone : ∀ ic ∈ later.storage.chunks, ic.ref = old.ref → ic.routesTo o = false := by
              intro ic listed named
              obtain ⟨middle, middleListed, remains, -⟩ := recedes.chunks ic listed
              have unrouted := cleared middle middleListed (remains.ref.symm.trans named)
              cases bit : ic.routesTo o with
              | false => rfl
              | true =>
                rw [remains.routes o bit] at unrouted
                cases unrouted
            refine ⟨.chunk ((less.trans counts).trans recedes) sound soundLater member routed flag gone, ?_⟩
            intro ic listed named _ bit
            rw [gone ic listed named] at bit
            cases bit
          split at result
          · cases result
            obtain ⟨soundAfter, recedes, -⟩ := @Sound.destroyReleased env config left soundCounted old there
            obtain ⟨freed, settled⟩ := done _ soundAfter recedes
            exact ⟨freed, fun _ => settled⟩
          · cases result
            obtain ⟨freed, settled⟩ := done _ soundCounted (.refl _)
            exact ⟨freed, fun _ => settled⟩
        | wholeChunk =>
          simp only at result
          obtain ⟨soundMarked, marks, same⟩ :=
            @Sound.markWhole config engine o sound old member (whole rfl old member rfl) count marked dropped
          obtain ⟨soundCounted, counts, storage⟩ := @Sound.counting env config _ o soundMarked count old
          rw [same] at storage
          generalize (if count = 0 then countDroppedRecords env o old marked else marked) = left
            at result soundCounted counts storage
          have there : ∃ ic ∈ left.storage.chunks, ic.ref = old.ref ∧ ic.task = old.task := by
            rw [storage]
            exact ⟨old, member, rfl, rfl⟩
          obtain ⟨soundAfter, recedes, gone⟩ := @Sound.destroyReleased env config left soundCounted old there
          rcases destroyed : FluentBit.destroyReleased env config old left with ⟨released, last⟩
          rw [destroyed] at result soundAfter recedes gone
          cases result
          refine ⟨?_, fun never => by cases never⟩
          have all := (marks.trans counts).trans recedes
          cases released with
          | false => exact .nothing all soundAfter
          | true =>
            exact .chunk all sound soundAfter member routed flag fun ic listed named =>
              absurd named (gone rfl ic listed)

theorem Sound.releaseLoop (scope : ReleaseScope) (required : Int) (refs : List ChunkRef) {released bytes : Int} (sound : Sound engine) (counted : Counted new o engine)
    (whole : scope = .wholeChunk → ∀ ic ∈ engine.storage.chunks, ic.ref ∈ refs →
      config.storageInputPlugin = some ic.ins)
    (result : FluentBit.releaseLoop env config new o scope required refs released engine = (bytes, after)) :
    Freed config o (bytes - released) engine after ∧
      (scope = .onlyRoute → required ≤ bytes ∨ ∀ c ∈ refs, Settled config new o c after) := by
  induction refs generalizing released engine with
  | nil =>
    cases result
    rw [Int.sub_self]
    exact ⟨.none sound, fun _ => .inr fun c member => absurd member not_mem_nil⟩
  | cons c refs ih =>
    have first : scope = .wholeChunk → ∀ ic ∈ engine.storage.chunks, ic.ref = c →
        config.storageInputPlugin = some ic.ins := by
      intro global ic listed named
      apply whole global ic listed
      rw [named]
      exact mem_cons_self
    unfold FluentBit.releaseLoop at result
    rcases outcome : FluentBit.releaseChunk env config new o scope c engine with ⟨given, middle⟩
    obtain ⟨freed, settled⟩ := @Sound.releaseChunk env config engine new c o sound counted scope first given middle
      outcome
    have later : scope = .wholeChunk → ∀ ic ∈ middle.storage.chunks, ic.ref ∈ refs →
        config.storageInputPlugin = some ic.ins := by
      intro global ic listed named
      obtain ⟨old, oldListed, remains, -⟩ := freed.recedes.chunks ic listed
      rw [remains.ins]
      apply whole global old oldListed
      rw [← remains.ref]
      exact mem_cons_of_mem _ named
    rw [outcome] at result
    have rest : ∀ sum : Int, FluentBit.releaseLoop env config new o scope required refs sum middle = (bytes, after) →
        sum = released + given.getD 0 → Freed config o (bytes - released) engine after ∧
          (scope = .onlyRoute → required ≤ bytes ∨ ∀ c' ∈ c :: refs, Settled config new o c' after) := by
      intro sum going known
      obtain ⟨freedRest, settledRest⟩ := ih freed.sound (freed.recedes.counted counted) later going
      have both := freed.trans freedRest
      have amount : given.getD 0 + (bytes - sum) = bytes - released := by omega
      rw [amount] at both
      refine ⟨both, fun isLocal => (settledRest isLocal).imp id fun each c' member => ?_⟩
      cases mem_cons.mp member with
      | inl here =>
        rw [here]
        exact freedRest.recedes.settled (settled isLocal)
      | inr there => exact each c' there
    cases given with
    | none => exact rest released result (Int.add_zero released).symm
    | some more =>
      simp only at result
      split at result
      · next enough =>
        cases result
        rw [add_sub_cancel_left]
        exact ⟨freed, fun _ => .inl enough⟩
      · exact rest _ result rfl

def Exhausted (config : Config) (new : ChunkRef) (o : OutId) (i : InputId) (engine : Engine) : Prop :=
  ∀ ic ∈ engine.storage.chunks, ic.ins = i → ic.ref ≠ new → ic.routesTo o = true → releasable config engine o ic = false

theorem Recedes.exhausted {i : InputId} (recedes : Recedes config before after)
    (exhausted : Exhausted config new o i before) : Exhausted config new o i after := by
  intro ic' listed owner different routed
  obtain ⟨ic, oldListed, remains, -, same⟩ := recedes.chunks ic' listed
  rw [remains.ins] at owner
  rw [remains.ref] at different
  rw [same o routed]
  exact exhausted ic oldListed owner different (remains.routes o routed)

theorem Sound.releaseSpace (sound : Sound engine) (counted : Counted new o engine) (i : InputId)
    (scope : ReleaseScope) (whole : scope = .wholeChunk → config.storageInputPlugin = some i)
    (result : inputChunkReleaseSpace env config new i o scope required engine = (left, after)) :
    Freed config o (required - left) engine after ∧
      (scope = .onlyRoute → left ≤ 0 ∨ Exhausted config new o i after) := by
  unfold inputChunkReleaseSpace at result
  rcases looped : FluentBit.releaseLoop env config new o scope required
    ((engine.storage.inputChunks i).map (·.ref)) 0 engine with ⟨bytes, last⟩
  rw [looped] at result
  cases result
  obtain ⟨freed, settled⟩ := Sound.releaseLoop scope required _ sound counted (by
    intro global ic listed named
    obtain ⟨other, member, same⟩ := mem_map.mp named
    obtain ⟨otherListed, owner⟩ := mem_filter.mp member
    have equal : ic = other := inj_on_of_nodup_map sound.distinct listed otherListed same.symm
    rw [whole global, equal, of_decide_eq_true owner]) looped
  rw [Int.sub_zero] at freed
  rw [Int.sub_sub_self]
  refine ⟨freed, fun isLocal => ?_⟩
  cases settled isLocal with
  | inl enough => exact .inl (Int.sub_nonpos_of_le enough)
  | inr each =>
    refine .inr fun ic listed owner => ?_
    obtain ⟨old, oldListed, remains, -⟩ := freed.recedes.chunks ic listed
    have visited : old ∈ engine.storage.inputChunks i :=
      mem_filter.mpr ⟨oldListed, decide_eq_true (remains.ins.symm.trans owner)⟩
    exact each old.ref (mem_map_of_mem visited) ic listed remains.ref

theorem Sound.releaseOtherInputs (own : InputId) (inputs : List InputId)
    (sound : Sound engine) (counted : Counted new o engine)
    (result : FluentBit.releaseOtherInputs env config new own o inputs required engine = (left, after)) :
    Freed config o (required - left) engine after ∧
      (left ≤ 0 ∨ ∀ i ∈ inputs, i ≠ own → Exhausted config new o i after) := by
  induction inputs generalizing required engine with
  | nil =>
    cases result
    rw [Int.sub_self]
    exact ⟨.none sound, .inr fun i member => absurd member not_mem_nil⟩
  | cons i inputs ih =>
    have one : ∀ middle mid, (if i = own then (required, engine)
        else inputChunkReleaseSpace env config new i o .onlyRoute required engine) = (mid, middle) →
        Freed config o (required - mid) engine middle ∧ (i ≠ own → mid ≤ 0 ∨ Exhausted config new o i middle) := by
      intro middle mid outcome
      split at outcome
      · next mine =>
        cases outcome
        rw [Int.sub_self]
        exact ⟨.none sound, fun apart => absurd mine apart⟩
      · obtain ⟨freed, exhausted⟩ := sound.releaseSpace counted i .onlyRoute (fun never => by cases never) outcome
        exact ⟨freed, fun _ => exhausted rfl⟩
    unfold FluentBit.releaseOtherInputs at result
    rcases outcome : (if i = own then (required, engine)
      else inputChunkReleaseSpace env config new i o .onlyRoute required engine) with ⟨mid, middle⟩
    obtain ⟨freed, exhausted⟩ := one middle mid outcome
    rw [outcome] at result
    simp only at result
    split at result
    · next enough =>
      cases result
      exact ⟨freed, .inl enough⟩
    · next more =>
      obtain ⟨freedRest, exhaustedRest⟩ := ih freed.sound (freed.recedes.counted counted) result
      have both := freed.trans freedRest
      rw [sub_add_sub_cancel] at both
      refine ⟨both, exhaustedRest.imp id fun each i' member apart => ?_⟩
      cases mem_cons.mp member with
      | inl here =>
        rw [here] at apart ⊢
        exact freedRest.recedes.exhausted ((exhausted apart).resolve_left more)
      | inr there => exact each i' there apart

/-! ### The queue of the output -/

private theorem queuedBytes_cons (queue : SbOutQueue) : queuedBytes o (queue :: queues) =
      (if queue.ins = o then (queue.chunks.map (·.size.toNat)).sum else 0) + queuedBytes o queues := by
  unfold queuedBytes
  rw [map_cons, sum_cons]

private theorem bytes_without_le (target : ChunkRef) (queue : SbOutQueue) :
    ((without target queue).chunks.map (·.size.toNat)).sum ≤ (queue.chunks.map (·.size.toNat)).sum := by
  cases found : queue.chunks.find? (·.chunk = target) with
  | none =>
    have same : (without target queue).chunks = queue.chunks := Tally.eraseP_of_find?_none found
    rw [same]
  | some entry =>
    have split := Tally.sum_eraseP (fun entry : SbOutChunk => entry.size.toNat) found
    exact le_of_add_right_le (Nat.le_of_eq split)

private theorem queuedBytes_without_le (o : OutId) (target : ChunkRef) (queues : List SbOutQueue) :
    queuedBytes o (queues.map (without target)) ≤ queuedBytes o queues := by
  induction queues with
  | nil => exact Nat.le_refl _
  | cons queue queues ih =>
    have ins : (without target queue).ins = queue.ins := rfl
    rw [map_cons, queuedBytes_cons, queuedBytes_cons, ins]
    apply Nat.add_le_add _ ih
    split
    · exact bytes_without_le target queue
    · exact Nat.le_refl _

private theorem queuedBytes_without {queue : SbOutQueue} (listed : queue ∈ queues) (mine : queue.ins = o)
    {entry : SbOutChunk}
    (member : entry ∈ queue.chunks) (once : (queue.chunks.map (·.chunk)).Nodup) :
    entry.size.toNat + queuedBytes o (queues.map (without entry.chunk)) ≤ queuedBytes o queues := by
  induction queues with
  | nil => cases listed
  | cons first queues ih =>
    have ins : (without entry.chunk first).ins = first.ins := rfl
    rw [map_cons, queuedBytes_cons, queuedBytes_cons, ins]
    cases mem_cons.mp listed with
    | inl here =>
      subst here
      have others := queuedBytes_without_le o entry.chunk queues
      rw [if_pos mine, if_pos mine]
      cases found : queue.chunks.find? (·.chunk = entry.chunk) with
      | none => exact absurd (decide_eq_true rfl) (List.find?_eq_none.mp found entry member)
      | some first =>
        have same : first.chunk = entry.chunk := by simpa using List.find?_some found
        have equal : first = entry := inj_on_of_nodup_map once (mem_of_find?_eq_some found) member same
        rw [equal] at found
        have split : ((without entry.chunk queue).chunks.map (·.size.toNat)).sum + entry.size.toNat =
            (queue.chunks.map (·.size.toNat)).sum :=
          Tally.sum_eraseP (fun entry : SbOutChunk => entry.size.toNat) found
        omega
    | inr later =>
      have rest := ih later
      have one := bytes_without_le entry.chunk first
      split
      · omega
      · omega

private theorem queuedBytes_eq_zero (empty : ∀ queue ∈ queues, queue.ins = o → queue.chunks = []) :
    queuedBytes o queues = 0 := by
  induction queues with
  | nil => rfl
  | cons queue queues ih =>
    rw [queuedBytes_cons, ih fun other listed => empty other (mem_cons_of_mem _ listed)]
    split
    · next mine => rw [empty queue mem_cons_self mine, map_nil, sum_nil]
    · rfl

private theorem queued_toNat_le (queue : SbOutQueue) :
    (BacklogAccounts.queued queue).toNat ≤ (queue.chunks.map (·.size.toNat)).sum := by
  unfold BacklogAccounts.queued
  induction queue.chunks with
  | nil => exact Nat.le_refl _
  | cons entry entries ih =>
    exact (mod_le _ _).trans (Nat.add_le_add_left ih _)

private theorem queuedFor_toNat_le : (BacklogAccounts.queuedFor o queues).toNat ≤ queuedBytes o queues := by
  induction queues with
  | nil => exact Nat.le_refl _
  | cons queue queues ih =>
    rw [BacklogAccounts.queuedFor_cons, queuedBytes_cons, BitVec.toNat_add]
    apply (mod_le _ _).trans (Nat.add_le_add _ ih)
    split
    · exact queued_toNat_le queue
    · exact Nat.le_refl _

theorem Sound.retire (sound : Sound engine) {cio : CioChunk} (member : cio ∈ engine.storage.backlog.cio) {after : Engine}
    (retired : after = (sbRemoveChunkFromSegregatedBacklogs env cio.ref engine).withStorage (closeBacklogChunk cio.ref)) :
    Sound after ∧ Recedes config engine after ∧ after.storage.chunks = engine.storage.chunks ∧
      after.storage.backlog.queues = engine.storage.backlog.queues.map (without cio.ref) := by
  have removed := @unconcerned_sbRemove env cio.ref engine
  have queues : after.storage.backlog.queues = engine.storage.backlog.queues.map (without cio.ref) := by
    rw [retired]
    exact removed_queues engine
  have chunks : after.storage.chunks = engine.storage.chunks := by
    rw [retired]
    exact removed.chunks
  have tasks : after.tasks = engine.tasks := by
    rw [retired]
    have kept := congrArg Engine.tasks removed.tasks
    exact kept
  have same : ∀ t, after.task? t = engine.task? t := by
    intro t
    unfold Engine.task?
    rw [tasks]
  refine ⟨⟨?_, ?_, ?_, ?_⟩, ⟨?_, ?_⟩, chunks, queues⟩
  · rw [chunks]
    exact sound.distinct
  · rw [chunks]
    intro ic listed t task owner live
    rw [same] at live
    exact sound.tied ic listed t task owner live
  · rw [retired]
    exact sound.backlog.retire member
  · rw [queues, map_map]
    exact sound.single
  · rw [chunks]
    intro ic listed
    refine ⟨ic, listed, .refl ic, rfl, fun o _ => ?_⟩
    unfold releasable
    cases ic.task with
    | none => rfl
    | some t =>
      simp only
      rw [same]
  · rw [queues]
    exact fun o => queuedBytes_without_le o cio.ref _

theorem Sound.releaseQueueLoop (required : SizeT) (entries : List SbOutChunk) {released bytes : SizeT}
    {engine after : Engine} (sound : Sound engine) (once : (entries.map (·.chunk)).Nodup)
    (here : ∀ entry ∈ entries, ∃ queue ∈ engine.storage.backlog.queues, queue.ins = o ∧ entry ∈ queue.chunks)
    (result : FluentBit.releaseQueueLoop env required entries released engine = (bytes, after)) :
    ∃ freed : Nat, Freed config o freed engine after ∧ bytes.toNat ≤ released.toNat + freed ∧
      (required ≤ bytes ∨ ∀ queue ∈ after.storage.backlog.queues, queue.ins = o → ∀ entry ∈ queue.chunks,
        (∃ old ∈ engine.storage.backlog.queues, old.ins = o ∧ entry ∈ old.chunks) ∧
          entry.chunk ∉ entries.map (·.chunk)) := by
  induction entries generalizing released engine with
  | nil =>
    cases result
    exact ⟨0, .none sound, Nat.le_refl _, .inr fun queue listed mine entry member =>
      ⟨⟨queue, listed, mine, member⟩, not_mem_nil⟩⟩
  | cons entry entries ih =>
    rw [map_cons, nodup_cons] at once
    obtain ⟨queue, listed, mine, member⟩ := here entry mem_cons_self
    obtain ⟨cio, cioMember, ref, -⟩ := sound.backlog.linked queue listed entry member
    have retired := @Sound.retire env config engine sound cio cioMember _ rfl
    rw [ref] at retired
    unfold FluentBit.releaseQueueLoop at result
    simp only at result
    generalize (sbRemoveChunkFromSegregatedBacklogs env entry.chunk engine).withStorage
      (closeBacklogChunk entry.chunk) = middle at retired result
    obtain ⟨soundMiddle, recedes, chunks, queues⟩ := retired
    have one : Freed config o entry.size.toNat engine middle := by
      refine ⟨soundMiddle, recedes, Int.natCast_nonneg _, ?_⟩
      have bytes := queuedBytes_without listed mine member (sound.backlog.once queue listed)
      unfold used
      rw [total_chunks, total_chunks, chunks, queues]
      omega
    have sum : (released + entry.size).toNat ≤ released.toNat + entry.size.toNat := by
      exact mod_le _ _
    split at result
    · next enough =>
      cases result
      exact ⟨entry.size.toNat, one, sum, .inl enough⟩
    · obtain ⟨freed, rest, bound, outcome⟩ := ih soundMiddle once.2 (by
        intro later laterMember
        obtain ⟨other, otherListed, same, inside⟩ := here later (mem_cons_of_mem _ laterMember)
        have apart : later.chunk ≠ entry.chunk := by
          intro equal
          exact once.1 (mem_map.mpr ⟨later, laterMember, equal⟩)
        have stays : later ∈ (without entry.chunk other).chunks := by
          unfold without
          rw [mem_eraseP_of_neg (by simpa using apart)]
          exact inside
        rw [queues]
        exact ⟨without entry.chunk other, mem_map_of_mem otherListed, same, stays⟩) result
      refine ⟨entry.size.toNat + freed, ?_, by omega, outcome.imp id fun each left leftListed leftMine x inside => ?_⟩
      · have both := one.trans rest
        exact both
      · obtain ⟨⟨old, oldListed, oldMine, before⟩, apart⟩ := each left leftListed leftMine x inside
        have free := BacklogAccounts.free_without sound.backlog.once (c := entry.chunk)
        rw [queues] at oldListed
        have different := free old oldListed x before
        obtain ⟨first, firstListed, rfl⟩ := mem_map.mp oldListed
        refine ⟨⟨first, firstListed, oldMine, BacklogAccounts.mem_without before⟩, ?_⟩
        rw [map_cons, mem_cons]
        exact fun inList => inList.elim different apart

private theorem sizeOfSSize_toNat (positive : 0 < required) (small : required < 2 ^ 64) :
    ((sizeOfSSize required).toNat : Int) = required := by
  unfold sizeOfSSize
  rw [BitVec.toNat_ofInt]
  omega

theorem Sound.releaseQueue (sound : Sound engine) (plugin : config.storageInputPlugin.isSome = true)
    (positive : 0 < required) (small : required < 2 ^ 64)
    (result : sbReleaseOutputQueueSpace env config o required engine = (left, after)) :
    ∃ freed : Nat, Freed config o freed engine after ∧ required - left ≤ freed ∧
      (required ≤ freed ∨ queuedBytes o after.storage.backlog.queues = 0) := by
  unfold sbReleaseOutputQueueSpace at result
  rw [if_neg (by rw [Option.isNone_iff_eq_none, ← Option.not_isSome_iff_eq_none]; exact not_not.mpr plugin)] at result
  cases found : engine.storage.backlog.queues.find? (·.ins = o) with
  | none =>
    rw [found] at result
    cases result
    refine ⟨0, .none sound, by rw [Int.sub_self]; exact Int.le_refl _, .inr (queuedBytes_eq_zero ?_)⟩
    intro queue listed mine
    exact absurd (decide_eq_true mine) (List.find?_eq_none.mp found queue listed)
  | some queue =>
    have listed := mem_of_find?_eq_some found
    have mine : queue.ins = o := by simpa using List.find?_some found
    rw [found] at result
    rcases looped : FluentBit.releaseQueueLoop env (sizeOfSSize required) queue.chunks 0 engine with ⟨bytes, last⟩
    simp only [looped] at result
    cases result
    obtain ⟨freed, done, bound, outcome⟩ := @Sound.releaseQueueLoop env config o (sizeOfSSize required)
      queue.chunks 0 bytes engine after sound (sound.backlog.once queue listed)
      (fun entry member => ⟨queue, listed, mine, member⟩) looped
    have zero : (0 : SizeT).toNat = 0 := rfl
    refine ⟨freed, done, ?_, ?_⟩
    · have signed : bytes.toInt ≤ bytes.toNat := by
        rw [BitVec.toInt_eq_toNat_cond]
        split
        · exact Int.le_refl _
        · omega
      omega
    · cases outcome with
      | inl enough =>
        have reached := BitVec.le_def.mp enough
        have exact_ := sizeOfSSize_toNat positive small
        exact .inl (by omega)
      | inr each =>
        refine .inr (queuedBytes_eq_zero fun left leftListed leftMine => ?_)
        rw [eq_nil_iff_forall_not_mem]
        intro entry inside
        obtain ⟨⟨old, oldListed, oldMine, before⟩, apart⟩ := each left leftListed leftMine entry inside
        have same : old = queue := inj_on_of_nodup_map sound.single oldListed listed (oldMine.trans mine.symm)
        rw [same] at before
        exact apart (mem_map_of_mem before)

def Dry (config : Config) (new : ChunkRef) (o : OutId) (engine : Engine) : Prop :=
  (∀ ic ∈ engine.storage.chunks, offered config new engine o ic = false) ∧
    queuedBytes o engine.storage.backlog.queues = 0

private theorem offered_eq_false : offered config new engine o ic = false ↔ (ic.ref ≠ new → ic.routesTo o = true →
      config.inputs.any (·.id = ic.ins) = true → releasable config engine o ic = false) := by
  unfold offered
  rw [← Bool.not_eq_true, ← Bool.not_eq_true, Bool.and_eq_true, Bool.and_eq_true, Bool.and_eq_true,
    decide_eq_true_eq, not_and, and_imp, and_imp]

theorem Recedes.dry (recedes : Recedes config before after) (dry : Dry config new o before) :
    Dry config new o after := by
  refine ⟨fun ic' listed => ?_, le_zero.mp ((recedes.queued o).trans (Nat.le_of_eq dry.2))⟩
  obtain ⟨ic, oldListed, remains, -, same⟩ := recedes.chunks ic' listed
  rw [offered_eq_false, remains.ref, remains.ins]
  intro different routed input
  rw [same o routed]
  exact offered_eq_false.mp (dry.1 ic oldListed) different (remains.routes o routed) input

theorem Recedes.reserve_le (recedes : Recedes config before after) (sound : Sound after)
    (counted : Counted new o before) (dry : Dry config new o after) :
    reserve config new o before + used o after ≤ used o before := by
  have stuck : total o (books after).accounts ≤ (before.storage.chunks.map fun ic =>
      if offered config new before o ic then 0 else (account ic).charge o).sum := by
    rw [total_chunks]
    apply Tally.sum_le_sum sound.distinct
    intro ic' listed charged
    obtain ⟨ic, oldListed, remains, -, same⟩ := recedes.chunks ic' listed
    refine ⟨ic, oldListed, remains.ref.symm, ?_⟩
    have bit : ic'.routesTo o = true := by
      by_contra unrouted
      refine charged (if_neg fun both => unrouted ?_)
      exact (Bool.and_eq_true_iff.mp both).1
    have kept : offered config new before o ic = false := by
      rw [offered_eq_false]
      intro different _ input
      rw [← same o bit]
      rw [← remains.ref] at different
      rw [← remains.ins] at input
      exact offered_eq_false.mp (dry.1 ic' listed) different bit input
    rw [kept, if_neg Bool.false_ne_true]
    exact charge_le_of_remains remains
  have parts : (before.storage.chunks.map fun ic =>
        if offered config new before o ic then ic.chunk.realSize else 0).sum +
      (before.storage.chunks.map fun ic => if offered config new before o ic then 0 else (account ic).charge o).sum =
      total o (books before).accounts := by
    rw [total_chunks, ← sum_map_add]
    congr 1
    apply map_congr_left
    intro ic listed
    by_cases out : offered config new before o ic = true
    · rw [if_pos out, if_pos out, Nat.add_zero]
      unfold offered at out
      simp only [Bool.and_eq_true, decide_eq_true_eq] at out
      obtain ⟨⟨⟨different, routed⟩, -⟩, -⟩ := out
      exact (if_pos (Bool.and_eq_true_iff.mpr ⟨routed, (counted ic listed different routed).1⟩)).symm
    · rw [if_neg out, if_neg out, Nat.zero_add]
  have empty := dry.2
  unfold reserve used
  omega

private theorem whileRequired_cases {stage : Int → Engine → Int × Engine}
    (result : whileRequired stage required engine = (left, after)) :
    (0 < required ∧ stage required engine = (left, after)) ∨ (required ≤ 0 ∧ left = required ∧ after = engine) := by
  unfold whileRequired at result
  split at result
  · next positive => exact .inl ⟨positive, result⟩
  · next nothing =>
    cases result
    exact .inr ⟨Int.not_lt.mp nothing, rfl, rfl⟩

theorem Sound.releaseSpaceCompound (sound : Sound engine) {ic : InputChunk} (counted : Counted ic.ref o engine)
    (plugin : config.storageInputPlugin.isSome = true) (small : ic.chunk.realSize < 2 ^ 64) :
    ∃ freed, Freed config o freed engine (inputChunkReleaseSpaceCompound env config ic o engine).2 ∧
      (ic.chunk.realSize ≤ freed ∨ Dry config ic.ref o (inputChunkReleaseSpaceCompound env config ic o engine).2) := by
  unfold inputChunkReleaseSpaceCompound
  rcases first : whileRequired (releaseBacklogInput env config ic.ref o) (inputChunkGetRealSize ic) engine
    with ⟨required₁, engine₁⟩
  rcases second : whileRequired (sbReleaseOutputQueueSpace env config o) required₁ engine₁ with ⟨required₂, engine₂⟩
  rcases third : whileRequired (inputChunkReleaseSpace env config ic.ref ic.ins o .onlyRoute) required₂ engine₂
    with ⟨required₃, engine₃⟩
  rcases fourth : whileRequired (FluentBit.releaseOtherInputs env config ic.ref ic.ins o (config.inputs.map (·.id)))
    required₃ engine₃ with ⟨required₄, engine₄⟩
  simp only [first, second, third, fourth]
  have freed₁ : Freed config o (inputChunkGetRealSize ic - required₁) engine engine₁ := by
    cases whileRequired_cases first with
    | inl run =>
      obtain ⟨-, stage⟩ := run
      unfold releaseBacklogInput at stage
      obtain ⟨i, backlog⟩ := Option.isSome_iff_exists.mp plugin
      rw [backlog] at stage
      exact (sound.releaseSpace counted i .wholeChunk (fun _ => backlog) stage).1
    | inr skipped =>
      obtain ⟨-, rfl, rfl⟩ := skipped
      rw [Int.sub_self]
      exact .none sound
  have counted₁ := freed₁.recedes.counted counted
  have less : required₁ < 2 ^ 64 := by
    have released := freed₁.nonnegative
    have known := inputChunkGetRealSize_eq ic
    split at known
    · omega
    · omega
  obtain ⟨bytes, freed₂, bytes_le, emptied⟩ : ∃ bytes : Nat, Freed config o bytes engine₁ engine₂ ∧
      required₁ - required₂ ≤ bytes ∧
      (0 < required₁ → required₁ ≤ bytes ∨ queuedBytes o engine₂.storage.backlog.queues = 0) := by
    cases whileRequired_cases second with
    | inl run =>
      obtain ⟨bytes, freed, bound, outcome⟩ := freed₁.sound.releaseQueue plugin run.1 less run.2
      exact ⟨bytes, freed, bound, fun _ => outcome⟩
    | inr skipped =>
      obtain ⟨nothing, rfl, rfl⟩ := skipped
      rw [Int.sub_self]
      exact ⟨0, .none freed₁.sound, Int.le_refl 0, fun positive => absurd nothing (Int.not_le.mpr positive)⟩
  have counted₂ := freed₂.recedes.counted counted₁
  obtain ⟨freed₃, own⟩ : Freed config o (required₂ - required₃) engine₂ engine₃ ∧
      (0 < required₂ → required₃ ≤ 0 ∨ Exhausted config ic.ref o ic.ins engine₃) := by
    cases whileRequired_cases third with
    | inl run =>
      obtain ⟨freed, outcome⟩ := freed₂.sound.releaseSpace counted₂ ic.ins .onlyRoute
        (fun never => by cases never) run.2
      exact ⟨freed, fun _ => outcome rfl⟩
    | inr skipped =>
      obtain ⟨nothing, rfl, rfl⟩ := skipped
      rw [Int.sub_self]
      exact ⟨.none freed₂.sound, fun positive => absurd nothing (Int.not_le.mpr positive)⟩
  have counted₃ := freed₃.recedes.counted counted₂
  obtain ⟨freed₄, others⟩ : Freed config o (required₃ - required₄) engine₃ engine₄ ∧
      (0 < required₃ → required₄ ≤ 0 ∨ ∀ i ∈ config.inputs.map (·.id), i ≠ ic.ins →
        Exhausted config ic.ref o i engine₄) := by
    cases whileRequired_cases fourth with
    | inl run =>
      obtain ⟨freed, outcome⟩ := Sound.releaseOtherInputs ic.ins _ freed₃.sound counted₃ run.2
      exact ⟨freed, fun _ => outcome⟩
    | inr skipped =>
      obtain ⟨nothing, rfl, rfl⟩ := skipped
      rw [Int.sub_self]
      exact ⟨.none freed₃.sound, fun positive => absurd nothing (Int.not_le.mpr positive)⟩
  refine ⟨_, ((freed₁.trans freed₂).trans freed₃).trans freed₄, ?_⟩
  have released₁ := freed₁.nonnegative
  have released₃ := freed₃.nonnegative
  have released₄ := freed₄.nonnegative
  by_cases enough : (ic.chunk.realSize : Int) ≤
      inputChunkGetRealSize ic - required₁ + bytes + (required₂ - required₃) + (required₃ - required₄)
  · exact .inl enough
  · -- something is still required at the end, so no stage was left out and none ended early
    have size : inputChunkGetRealSize ic = ic.chunk.realSize ∨ inputChunkGetRealSize ic = -1 ∧ ic.chunk.realSize = 0 := by
      rw [inputChunkGetRealSize_eq]
      split
      · next empty => exact .inr ⟨rfl, empty⟩
      · exact .inl rfl
    have left₄ : 0 < required₄ := by omega
    have left₃ : 0 < required₃ := by omega
    have left₂ : 0 < required₂ := by omega
    have left₁ : 0 < required₁ := by omega
    have queue := (emptied left₁).resolve_left (by omega)
    have ownInput := freed₄.recedes.exhausted ((own left₂).resolve_left (Int.not_le.mpr left₃))
    have otherInputs := (others left₃).resolve_left (Int.not_le.mpr left₄)
    refine .inr ⟨fun chunk listed => offered_eq_false.mpr fun different routed input => ?_, ?_⟩
    · by_cases mine : chunk.ins = ic.ins
      · exact ownInput chunk listed mine different routed
      · obtain ⟨instance_, member, named⟩ := any_eq_true.mp input
        have known := of_decide_eq_true named
        exact otherInputs chunk.ins (mem_map.mpr ⟨instance_, member, known⟩) mine chunk listed rfl different routed
    · have later := (freed₃.recedes.trans freed₄.recedes).queued o
      rw [queue] at later
      exact le_zero.mp later

theorem Sound.foldl (outputs : List OutId) (plugin : config.storageInputPlugin.isSome = true)
    (small : ic.chunk.realSize < 2 ^ 64) (sound : Sound engine) (counted : ∀ o ∈ outputs, Counted ic.ref o engine)
    (folded : after = outputs.foldl (fun engine o => (inputChunkReleaseSpaceCompound env config ic o engine).2) engine) :
    Sound after ∧ Recedes config engine after ∧
      ∀ o ∈ outputs, ic.chunk.realSize + used o after ≤ used o engine ∨ Dry config ic.ref o after := by
  induction outputs generalizing engine with
  | nil =>
    rw [folded]
    exact ⟨sound, .refl engine, fun o member => absurd member not_mem_nil⟩
  | cons o outputs ih =>
    obtain ⟨bytes, freed, outcome⟩ :=
      @Sound.releaseSpaceCompound env config engine o sound ic (counted o mem_cons_self) plugin small
    obtain ⟨soundAfter, recedes, each⟩ := ih freed.sound (fun other member =>
      freed.recedes.counted (counted other (mem_cons_of_mem _ member))) folded
    refine ⟨soundAfter, freed.recedes.trans recedes, fun other member => ?_⟩
    cases mem_cons.mp member with
    | inl here =>
      rw [here]
      cases outcome with
      | inl enough =>
        have done := freed.bytes_le
        have kept := recedes.used_le soundAfter o
        exact .inl (by omega)
      | inr dry => exact .inr (recedes.dry dry)
    | inr later =>
      have before := freed.recedes.used_le freed.sound other
      exact (each other later).imp (fun done => done.trans before) id

end

/-- The bytes fit, or they fit when so much is released as the chunk takes that receives them, and there is as much. -/
def Enough (config : Config) (ic : InputChunk) (chunkSize : SizeT) (engine : Engine) (o : OutId) : Prop :=
  ∀ limit, config.totalLimitSize o = some limit →
    used o engine + chunkSize.toNat ≤ (BitVec.ofNat 64 limit).toNat +
      if exceedsLimit config engine.storage o chunkSize then min ic.chunk.realSize (reserve config ic.ref o engine) else 0

section

variable {env : Env} {config : Config} {engine after : Engine} {ic : InputChunk} {chunkSize : SizeT}
variable {o : OutId}

private theorem not_exceeds (kept : Kept config (books engine)) (sound : Sound engine)
    (fits : ∀ limit, config.totalLimitSize o = some limit →
      used o engine + chunkSize.toNat ≤ (BitVec.ofNat 64 limit).toNat) :
    ¬Overlimit.exceeds config engine.storage chunkSize o := by
  intro exceeding
  obtain ⟨limit, known, more⟩ := exceeding
  have bound := fits limit known
  have isLimited : config.isLimited o = true := Option.isSome_iff_exists.mpr ⟨limit, known⟩
  have charged : (engine.storage.fsChunksSize o).toNat ≤ total o (books engine).accounts := by
    have balanced : engine.storage.fsChunksSize o = BitVec.ofNat 64 (total o (books engine).accounts) :=
      kept.balanced o isLimited
    rw [balanced, BitVec.toNat_ofNat]
    exact mod_le _ _
  have queued : (engine.storage.fsBacklogChunksSize o).toNat ≤ queuedBytes o engine.storage.backlog.queues := by
    rw [sound.backlog.balanced o]
    exact queuedFor_toNat_le
  unfold used at bound
  omega

private theorem counted_of_covered (kept : Kept config (books engine)) (isLimited : config.isLimited o = true)
    (covered : ChunkAccounts.Covered config ic.ref (· = o) engine) : Counted ic.ref o engine := by
  intro old listed different routed
  have flag := covered old listed different o rfl isLimited routed
  exact ⟨flag, kept.sized (account old) (mem_map_of_mem listed) flag⟩

private theorem placeNewChunk_eq (chunkSize : SizeT) (found : engine.storage.chunk? ic.ref = some ic)
    (disk : config.storageType ic.ins = .fs) : (inputChunkPlaceNewChunk env config ic.ref chunkSize engine).2 =
      (Overlimit.calls config ic (inputChunkHasOverlimitRoutes config ic chunkSize engine.storage)).foldl
        (fun engine o => (inputChunkReleaseSpaceCompound env config ic o engine).2) engine := by
  unfold inputChunkPlaceNewChunk
  simp only [found, disk, if_true]
  split
  · exact Overlimit.findSpaceLoop_eq env config ic _ config.outputs engine
  · next within =>
    have none_called : Overlimit.calls config ic 0 = [] := by
      unfold Overlimit.calls
      rw [map_eq_nil_iff, filter_eq_nil_iff]
      intro o _
      have nothing : (overlimitBit o.id &&& 0) = 0 := BitVec.and_zero
      rw [nothing, beq_self_eq_true, Bool.or_true, Bool.true_or]
      exact Bool.false_ne_true
    rw [not_not.mp within, none_called]
    rfl

/-- After a chunk was placed each output with a limit that it is still routed to has room for its bytes. -/
theorem placed_within_limits (env : Env) (config : Config) (engine : Engine) (chunkSize : SizeT) (ic : InputChunk)
    (found : engine.storage.chunk? ic.ref = some ic) (disk : config.storageType ic.ins = .fs)
    (plugin : config.storageInputPlugin.isSome = true) (small : ic.chunk.realSize < 2 ^ 64)
    (sound : Sound engine) (kept : Kept config (books engine))
    (covered : ChunkAccounts.Covered config ic.ref (Reclaimed config chunkSize engine.storage) engine)
    (enough : ∀ o, Overlimit.limited config ic o → Enough config ic chunkSize engine o) :
    ∀ left, (inputChunkPlaceNewChunk env config ic.ref chunkSize engine).2.storage.chunk? ic.ref = some left →
      ∀ o, Overlimit.limited config left o →
        ¬Overlimit.exceeds config (inputChunkPlaceNewChunk env config ic.ref chunkSize engine).2.storage chunkSize o := by
  have folded := @placeNewChunk_eq env config engine ic chunkSize found disk
  generalize (inputChunkPlaceNewChunk env config ic.ref chunkSize engine).2 = after at folded ⊢
  have scope : ∀ o ∈ Overlimit.calls config ic (inputChunkHasOverlimitRoutes config ic chunkSize engine.storage),
      Reclaimed config chunkSize engine.storage o := by
    intro o called
    obtain ⟨⟨limited, -⟩, other, ⟨otherLimited, -⟩, same, exceeding⟩ :=
      (Overlimit.mem_calls ic chunkSize engine.storage).mp called
    exact ⟨limited, other, otherLimited, same, exceeding⟩
  obtain ⟨soundAfter, recedes, each⟩ := sound.foldl _ plugin small (by
    intro o called
    apply counted_of_covered kept (scope o called).1
    intro old listed different o' same
    rw [same]
    exact covered old listed different o (scope o called)) folded
  have keptAfter : Kept config (books after) := by
    have reclaims := @Overlimit.foldl_reclaims env config (Reclaimed config chunkSize engine.storage) ic _ scope engine
    rw [← folded] at reclaims
    exact (Kept.reclaims reclaims covered kept).1
  intro left there o limited
  apply not_exceeds keptAfter soundAfter
  intro limit known
  have routed : Overlimit.limited config ic o := by
    obtain ⟨leftListed, leftRef⟩ := Storage.chunk?_some there
    obtain ⟨old, oldListed, remains, -⟩ := recedes.chunks left leftListed
    have same : old = ic := inj_on_of_nodup_map sound.distinct oldListed (Storage.chunk?_some found).1
      (remains.ref.symm.trans leftRef)
    rw [same] at remains
    exact ⟨limited.1, remains.routes o limited.2⟩
  have room := enough o routed limit known
  have kept := recedes.used_le soundAfter o
  split at room
  · next exceeding =>
    have called := (Overlimit.mem_calls ic chunkSize engine.storage).mpr ⟨routed, o, routed, rfl, exceeding⟩
    cases each o called with
    | inl done =>
      omega
    | inr dry =>
      have counted : Counted ic.ref o engine := by
        apply counted_of_covered ‹_› routed.1
        intro old listed different o' same
        rw [same]
        exact covered old listed different o (scope o called)
      have all := recedes.reserve_le soundAfter counted dry
      omega
  · omega

end

def twoChunks : Engine :=
  Runs.after (ChunkAccounts.step Sample.willing smallConfig) (started Sample.noDisk)
    [.append (Sample.logs [1]), .create 0 .logs [2]]

def incoming : InputChunk := (twoChunks.storage.chunk? 3).get (by decide)

private theorem twoChunks_sound : Sound twoChunks := by
  have untasked : ∀ ic ∈ twoChunks.storage.chunks, ic.task = none := by decide
  constructor
  · decide
  · intro ic listed t task owner
    rw [untasked ic listed] at owner
    cases owner
  · constructor
    · exact nodup_nil
    · exact fun cio never => absurd never not_mem_nil
    · exact fun queue never => absurd never not_mem_nil
    · exact fun queue never => absurd never not_mem_nil
    · exact fun o => rfl
  · exact nodup_nil

private theorem twoChunks_kept : Kept smallConfig (books twoChunks) := by
  have first : Kept smallConfig (books (ChunkAccounts.step Sample.willing smallConfig (.append (Sample.logs [1]))
      (started Sample.noDisk))) := by
    apply started_unused.kept.step
    exact appends_of_counted Sample.willing (by decide)
  exact first.create 0 .logs [2]

private theorem smallConfig_limited {o : OutId} (isLimited : smallConfig.isLimited o = true) : o = 0 := by
  obtain ⟨out, listed, named, -⟩ := Overlimit.isLimited_iff.mp isLimited
  rw [← named, mem_singleton.mp listed]
  rfl

/-- Eighty bytes fit after the old chunk was dropped. -/
theorem placed_within_limits_twoChunks : Overlimit.limited smallConfig incoming 0 ∧ ¬Overlimit.exceeds smallConfig
        (inputChunkPlaceNewChunk Sample.willing smallConfig incoming.ref 80 twoChunks).2.storage 80 0 := by
  refine ⟨⟨rfl, rfl⟩, placed_within_limits Sample.willing smallConfig twoChunks 80 incoming rfl rfl rfl (by decide)
    twoChunks_sound twoChunks_kept ?_ ?_ incoming rfl 0 ⟨rfl, rfl⟩⟩
  · intro ic listed different _ _ _ _
    have counted : ∀ ic ∈ twoChunks.storage.chunks, ic.ref ≠ incoming.ref → ic.fsCounted = true := by decide
    exact counted ic listed different
  · intro o route limit known
    have first := smallConfig_limited route.1
    subst first
    cases known
    decide

/-- With two hundred bytes the old chunk is dropped in vain, and the route stays. -/
theorem route_kept_without_room :
    ¬∀ left, (inputChunkPlaceNewChunk Sample.willing smallConfig incoming.ref 200 twoChunks).2.storage.chunk?
        incoming.ref = some left → ∀ o, Overlimit.limited smallConfig left o → ¬Overlimit.exceeds smallConfig
        (inputChunkPlaceNewChunk Sample.willing smallConfig incoming.ref 200 twoChunks).2.storage 200 o := by
  intro fits
  have routed : Overlimit.limited smallConfig incoming 0 := ⟨rfl, rfl⟩
  exact fits incoming rfl 0 routed ⟨100, rfl, by decide⟩

end FluentBit.Room
