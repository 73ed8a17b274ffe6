import FluentBit.Engine.Event
import FluentBit.Foundation.Loop
import FluentBit.Storage.ChunkProperties

/-! The loop of `cb_queue_chunks`: a chunk that is set up leaves the queues, and one that is not
stays at the head of its queue. -/

set_option autoImplicit false

namespace FluentBit.QueueChunks

open List Nat Option

/-! ### Passes -/

structure Sweep where
  total : Nat
  empty : Nat
  engine : Engine

def Sweep.backlog (sweep : Sweep) : Backlog := sweep.engine.storage.backlog

def Going (config : Config) (sweep : Sweep) : Prop :=
  sweep.total < config.storageBlMemLimit ∧ sweep.empty < sweep.backlog.queues.length

instance (config : Config) : DecidablePred (Going config) := fun _ => inferInstanceAs (Decidable (_ ∧ _))

def pass (env : Env) (config : Config) (i : InputId) (sweep : Sweep) : Sweep :=
  match visitQueues env config i (List.range sweep.backlog.queues.length) sweep.total 0 sweep.engine with
  | (total, empty, engine) => { total, empty, engine }

def start (i : InputId) (engine : Engine) : Sweep :=
  { total := inputChunkTotalSize i engine.storage, empty := 0, engine }

def passes (env : Env) (config : Config) (i : InputId) (n : Nat) (engine : Engine) : Sweep :=
  Loop.passes (Going config) (pass env config i) n (start i engine)

def first (backlog : Backlog) (position : Nat) : Option SbOutChunk :=
  (backlog.queues[position]?).bind (·.chunks.head?)

def chunkOf (backlog : Backlog) (entry : SbOutChunk) : Option CioChunk :=
  backlog.cio.find? (·.ref = entry.chunk)

def heads (backlog : Backlog) (positions : List Nat) : List CioChunk :=
  positions.filterMap fun position => (first backlog position).bind (chunkOf backlog)

def entries (queues : List SbOutQueue) : Nat := (queues.map fun queue => queue.chunks.length).sum

/-- `cio_chunk_up_force` answers `CIO_ERROR` or `CIO_RETRY`. -/
def Refuses (env : Env) (tick : Nat) : Prop := env.ok .chunkUp tick = false ∧ env.ok .chunkCorrupted tick = false

def Held (env : Env) (positions : List Nat) (engine : Engine) : Prop :=
  ∀ (k : Nat) cio, (heads engine.storage.backlog positions)[k]? = some cio →
    cio.up = false ∧ Refuses env (engine.tick + k)

variable {result : Nat × Nat × Engine} {total empty : Nat}

section

variable {env : Env} {config : Config} {i : InputId} {engine : Engine} {target : ChunkRef} {realSize : SizeT}

private theorem queueChunksLoop_eq (n : Nat) (total empty : Nat) (engine : Engine) :
    queueChunksLoop env config i n total empty engine =
      (Loop.passes (Going config) (pass env config i) n { total, empty, engine }).engine := by
  induction n generalizing total empty engine with
  | zero => rfl
  | succ n ih =>
    rw [Loop.passes_succ]
    unfold queueChunksLoop
    simp only
    by_cases goes : Going config { total, empty, engine }
    · have opened : total < config.storageBlMemLimit ∧ empty < engine.storage.backlog.queues.length := goes
      rw [Loop.step_going goes, if_pos opened]
      exact ih _ _ _
    · have closed : ¬ (total < config.storageBlMemLimit ∧ empty < engine.storage.backlog.queues.length) := goes
      rw [Loop.step_ended goes, if_neg closed, Loop.passes_ended goes]

theorem cbQueueChunks_eq (n : Nat) : cbQueueChunks env config i n engine = (passes env config i n engine).engine :=
  queueChunksLoop_eq n _ 0 engine

def without (target : ChunkRef) (queue : SbOutQueue) : SbOutQueue :=
  { queue with chunks := queue.chunks.eraseP (·.chunk = target) }

private theorem removeFromQueues_queues (queues : List SbOutQueue) (storage : Storage) :
    (removeFromQueues target realSize queues storage).1 = queues.map (without target) := by
  induction queues generalizing storage with
  | nil => rfl
  | cons queue queues ih =>
    unfold removeFromQueues
    simp only [map_cons, ih]
    congr 1
    unfold sbRemoveChunkFromSegregatedBacklog without
    cases found : queue.chunks.find? (·.chunk = target) with
    | none => rw [Tally.eraseP_of_find?_none found]
    | some entry => rfl

theorem removed_queues (engine : Engine) :
    (sbRemoveChunkFromSegregatedBacklogs env target engine).storage.backlog.queues =
      engine.storage.backlog.queues.map (without target) :=
  removeFromQueues_queues _ _

theorem inputChunkMap_backlog {type : EventType} {cio left : CioChunk} {ref : Option ChunkRef} {after : Engine}
    (mapped : inputChunkMap env config i type cio engine = (ref, left, after)) :
    after.storage.backlog = engine.storage.backlog := by
  have cases := @inputChunkMap_cases env config i type cio engine
  rw [mapped] at cases
  rcases cases with ⟨kept, same⟩ | ⟨records, kept, -, same⟩
  · cases same
    rfl
  · cases same
    unfold linkMapped inputChunkUpdateOutputInstances
    simp only
    split
    · rfl
    · rfl

private theorem visitQueue_loaded {entry : SbOutChunk} {after : Engine} {cio : CioChunk}
    (loaded : cioChunkUpForce env entry.chunk engine = (.ok, after))
    (here : after.storage.backlog.cio.find? (·.ref = entry.chunk) = some cio) :
    (visitQueue env config i entry engine).1 ≠ .stuck ∧
      (visitQueue env config i entry engine).2.storage.backlog.queues =
        after.storage.backlog.queues.map (without entry.chunk) := by
  unfold visitQueue
  simp only [loaded, here]
  split
  · exact ⟨SbVisited.noConfusion, removed_queues _⟩
  · split
    · exact ⟨SbVisited.noConfusion, removed_queues _⟩
    · cases mapped : inputChunkMap env config i cio.eventType cio after.tock with
      | mk ref rest =>
        obtain ⟨left, last⟩ := rest
        have backlog := inputChunkMap_backlog mapped
        have queues : last.storage.backlog.queues = after.storage.backlog.queues := by
          rw [backlog]
          rfl
        cases ref with
        | none | some ic =>
          refine ⟨SbVisited.noConfusion, (removed_queues _).trans ?_⟩
          exact congrArg _ queues

inductive Visit (env : Env) (entry : SbOutChunk) (engine : Engine) : SbVisited × Engine → Prop where
  | gone : chunkOf engine.storage.backlog entry = none → Visit env entry engine (.stuck, { engine with fault := true })
  | held {cio : CioChunk} : chunkOf engine.storage.backlog entry = some cio → cio.up = false →
      Refuses env engine.tick → Visit env entry engine (.stuck, engine.tock)
  | left {cio : CioChunk} {visited : SbVisited} {after : Engine} : chunkOf engine.storage.backlog entry = some cio →
      ¬ (cio.up = false ∧ Refuses env engine.tick) → visited ≠ .stuck →
      after.storage.backlog.queues = engine.storage.backlog.queues.map (without entry.chunk) →
      Visit env entry engine (visited, after)

private theorem visitQueue_visit (entry : SbOutChunk) (engine : Engine) :
    Visit env entry engine (visitQueue env config i entry engine) := by
  cases found : chunkOf engine.storage.backlog entry with
  | none =>
    have here : engine.storage.backlog.cio.find? (·.ref = entry.chunk) = none := found
    have missing : cioChunkUpForce env entry.chunk engine = (.error, { engine with fault := true }) := by
      unfold cioChunkUpForce
      rw [here]
    unfold visitQueue
    simp only [missing]
    exact .gone found
  | some cio =>
    have here : engine.storage.backlog.cio.find? (·.ref = entry.chunk) = some cio := found
    cases up : cio.up with
    | true =>
      have loaded : cioChunkUpForce env entry.chunk engine = (.ok, engine) := by
        unfold cioChunkUpForce
        simp [here, up]
      obtain ⟨moves, queues⟩ := @visitQueue_loaded env config i engine entry engine cio loaded here
      exact .left found (by simp [up]) moves queues
    | false =>
      cases answered : env.ok .chunkUp engine.tick with
      | true =>
        have loaded : cioChunkUpForce env entry.chunk engine =
            (.ok, engine.tock.withStorage (setBacklogCio entry.chunk CioChunk.setUp)) := by
          unfold cioChunkUpForce Engine.answers
          simp [here, up, answered]
        have there : (engine.tock.withStorage (setBacklogCio entry.chunk CioChunk.setUp)).storage.backlog.cio.find?
            (·.ref = entry.chunk) = some cio.setUp :=
          @Tally.find?_replace _ _ _ CioChunk.ref _ CioChunk.setUp _ _ (fun _ => rfl) here
        obtain ⟨moves, queues⟩ := @visitQueue_loaded env config i engine entry _ cio.setUp loaded there
        exact .left found (by simp [Refuses, answered]) moves queues
      | false =>
        cases corrupted : env.ok .chunkCorrupted engine.tick with
        | true =>
          have lost : cioChunkUpForce env entry.chunk engine = (.corrupted, engine.tock) := by
            unfold cioChunkUpForce Engine.answers
            simp [here, up, answered, corrupted]
          unfold visitQueue
          simp only [lost]
          exact .left found (by simp [Refuses, corrupted]) SbVisited.noConfusion (removed_queues _)
        | false =>
          have refused : cioChunkUpForce env entry.chunk engine = (.error, engine.tock) := by
            unfold cioChunkUpForce Engine.answers
            simp [here, up, answered, corrupted]
          unfold visitQueue
          simp only [refused]
          exact .held found up ⟨answered, corrupted⟩

/-! ### A pass -/

private theorem entries_without_le (queues : List SbOutQueue) :
    entries (queues.map (without target)) ≤ entries queues := by
  induction queues with
  | nil => exact Nat.le_refl _
  | cons queue queues ih =>
    have one : (without target queue).chunks.length ≤ queue.chunks.length := length_eraseP_le
    simp only [entries, map_cons, sum_cons] at ih ⊢
    exact Nat.add_le_add one ih

private theorem entries_without_lt {queues : List SbOutQueue} {position : Nat} {entry : SbOutChunk}
    (here : (queues[position]?).bind (·.chunks.head?) = some entry) :
    entries (queues.map (without entry.chunk)) < entries queues := by
  induction queues generalizing position with
  | nil => cases here
  | cons queue queues ih =>
    simp only [entries, map_cons, sum_cons] at ih ⊢
    cases position with
    | zero =>
      obtain ⟨rest, chunks⟩ := List.head?_eq_some_iff.mp here
      have fewer : (without entry.chunk queue).chunks.length < queue.chunks.length := by
        simp [without, chunks]
      exact Nat.add_lt_add_of_lt_of_le fewer (entries_without_le queues)
    | succ position =>
      have same : (without entry.chunk queue).chunks.length ≤ queue.chunks.length := length_eraseP_le
      exact Nat.add_lt_add_of_le_of_lt same (ih here)

inductive Passed (env : Env) (positions : List Nat) (total empty : Nat) (engine : Engine) :
    Nat × Nat × Engine → Prop where
  | held {after : Engine} : Held env positions engine → after.storage = engine.storage →
      after.tick = engine.tick + (heads engine.storage.backlog positions).length →
      Passed env positions total empty engine
        (total, empty + positions.countP (fun position => (first engine.storage.backlog position).isNone), after)
  | moved {total' empty' : Nat} {after : Engine} : ¬ Held env positions engine →
      after.storage.backlog.queues.length = engine.storage.backlog.queues.length →
      entries after.storage.backlog.queues < entries engine.storage.backlog.queues →
      Passed env positions total empty engine (total', empty', after)

variable {positions : List Nat}

section

variable (passed : Passed env positions total empty engine result)
include passed

theorem Passed.length : result.2.2.storage.backlog.queues.length = engine.storage.backlog.queues.length := by
  cases passed with
  | held _ storage _ => rw [storage]
  | moved _ length _ => exact length

theorem Passed.entries_le : entries result.2.2.storage.backlog.queues ≤ entries engine.storage.backlog.queues := by
  cases passed with
  | held _ storage _ => rw [storage]
  | moved _ _ fewer => exact Nat.le_of_lt fewer

theorem Passed.of_held (held : Held env positions engine) : result.1 = total ∧
      result.2.1 = empty + positions.countP (fun position => (first engine.storage.backlog position).isNone) ∧
      result.2.2.storage = engine.storage ∧
      result.2.2.tick = engine.tick + (heads engine.storage.backlog positions).length := by
  cases passed with
  | held _ storage tick => exact ⟨rfl, rfl, storage, tick⟩
  | moved unheld _ _ => exact absurd held unheld

theorem Passed.of_moved (unheld : ¬ Held env positions engine) :
    entries result.2.2.storage.backlog.queues < entries engine.storage.backlog.queues := by
  cases passed with
  | held held _ _ => exact absurd held unheld
  | moved _ _ fewer => exact fewer

end

private theorem heads_cons (backlog : Backlog) (position : Nat) : heads backlog (position :: positions) =
      ((first backlog position).bind (chunkOf backlog)).toList ++ heads backlog positions := by
  unfold heads
  rw [filterMap_cons]
  cases (first backlog position).bind (chunkOf backlog) with
  | none => rfl
  | some cio => rfl

private theorem held_cons {positions : List Nat} {position : Nat} {cio : CioChunk}
    (here : (first engine.storage.backlog position).bind (chunkOf engine.storage.backlog) = some cio) :
    Held env (position :: positions) engine ↔
      (cio.up = false ∧ Refuses env engine.tick) ∧ Held env positions engine.tock := by
  unfold Held
  rw [heads_cons, here]
  constructor
  · intro held
    refine ⟨held 0 cio rfl, fun k other found => ?_⟩
    have later := held (k + 1) other found
    rwa [Nat.add_comm k 1, ← Nat.add_assoc] at later
  · rintro ⟨now, held⟩ k other found
    cases k with
    | zero =>
      cases found
      exact now
    | succ k =>
      have later := held k other found
      rw [Nat.add_comm k 1, ← Nat.add_assoc]
      exact later

private theorem held_skip {positions : List Nat} {position : Nat}
    (nothing : (first engine.storage.backlog position).bind (chunkOf engine.storage.backlog) = none) :
    Held env (position :: positions) engine ↔ Held env positions engine := by
  unfold Held
  rw [heads_cons, nothing]
  rfl

private theorem visitQueues_passed (positions : List Nat) (total empty : Nat) (engine : Engine) :
    Passed env positions total empty engine (visitQueues env config i positions total empty engine) := by
  induction positions generalizing total empty engine with
  | nil => exact .held (fun k cio found => by cases found) rfl rfl
  | cons position positions ih =>
    unfold visitQueues
    cases here : (engine.storage.backlog.queues[position]?).bind (·.chunks.head?) with
    | none =>
      have nobody : first engine.storage.backlog position = none := here
      have skip := @held_skip env engine positions position (by rw [nobody]; rfl)
      have rest := ih total (empty + 1) engine
      simp only
      generalize visitQueues env config i positions total (empty + 1) engine = result at rest ⊢
      cases rest with
      | @held after holds storage tick =>
        have passed : Passed env (position :: positions) total empty engine (total, _, after) :=
          .held (skip.mpr holds) storage (by rw [heads_cons, nobody]; exact tick)
        rw [countP_cons_of_pos (by rw [nobody]; rfl)] at passed
        rwa [Nat.add_assoc, Nat.add_comm 1]
      | moved unheld length fewer => exact .moved (mt skip.mp unheld) length fewer
    | some entry =>
      have somebody : first engine.storage.backlog position = some entry := here
      have visit := @visitQueue_visit env config i entry engine
      simp only
      cases visited : visitQueue env config i entry engine with
      | mk outcome after =>
        rw [visited] at visit
        have counted : (position :: positions).countP (fun position => (first engine.storage.backlog position).isNone) =
            positions.countP fun position => (first engine.storage.backlog position).isNone :=
          countP_cons_of_neg (by rw [somebody]; exact Bool.false_ne_true)
        cases visit with
        | gone missing =>
          have nothing : (first engine.storage.backlog position).bind (chunkOf engine.storage.backlog) = none := by
            rw [somebody]
            exact missing
          have skip := @held_skip env engine positions position nothing
          have rest := ih total empty { engine with fault := true }
          simp only
          generalize visitQueues env config i positions total empty { engine with fault := true } = result at rest ⊢
          cases rest with
          | @held last holds storage tick =>
            have passed : Passed env (position :: positions) total empty engine (total, _, last) :=
              .held (skip.mpr holds) storage (by rw [heads_cons, nothing]; exact tick)
            rwa [counted] at passed
          | moved unheld length fewer => exact .moved (mt skip.mp unheld) length fewer
        | @held cio open_ down refused =>
          have opened : (first engine.storage.backlog position).bind (chunkOf engine.storage.backlog) = some cio := by
            rw [somebody]
            exact open_
          have split := @held_cons env engine positions position cio opened
          have rest := ih total empty engine.tock
          simp only
          generalize visitQueues env config i positions total empty engine.tock = result at rest ⊢
          cases rest with
          | @held last holds storage tick =>
            have ticks : last.tick = engine.tick + (heads engine.storage.backlog (position :: positions)).length := by
              rw [heads_cons, opened, tick]
              simp only [toList_some, length_append, length_singleton]
              exact Nat.add_assoc _ _ _
            have passed : Passed env (position :: positions) total empty engine (total, _, last) :=
              .held (split.mpr ⟨⟨down, refused⟩, holds⟩) storage ticks
            rwa [counted] at passed
          | moved unheld length fewer => exact .moved (fun held => unheld (split.mp held).2) length fewer
        | @left cio _ _ open_ willing moves queues =>
          have opened : (first engine.storage.backlog position).bind (chunkOf engine.storage.backlog) = some cio := by
            rw [somebody]
            exact open_
          have unheld : ¬ Held env (position :: positions) engine := by
            intro held
            exact willing ((held_cons opened).mp held).1
          have fewer := entries_without_lt here
          rw [← queues] at fewer
          have same : after.storage.backlog.queues.length = engine.storage.backlog.queues.length := by
            rw [queues, length_map]
          have rest : ∀ sum, Passed env (position :: positions) total empty engine
              (visitQueues env config i positions sum empty after) := by
            intro sum
            have later := ih sum empty after
            exact .moved unheld (later.length.trans same) (Nat.lt_of_le_of_lt later.entries_le fewer)
          cases outcome with
          | mapped size => exact rest (total + size)
          | empty | removed => exact rest total
          | stuck => exact absurd rfl moves

end

/-! ### The loop -/

def Waiting (sweep : Sweep) : Prop := ∃ queue ∈ sweep.backlog.queues, queue.chunks ≠ []

def Sweep.heads (sweep : Sweep) : List CioChunk :=
  QueueChunks.heads sweep.backlog (List.range sweep.backlog.queues.length)

def Blocked (env : Env) (sweep : Sweep) : Prop :=
  Waiting sweep ∧ Held env (List.range sweep.backlog.queues.length) sweep.engine

def Jammed (env : Env) (sweep : Sweep) : Prop :=
  Waiting sweep ∧ ∀ cio ∈ sweep.heads, cio.up = false ∧ ∀ tick, sweep.engine.tick ≤ tick → Refuses env tick

def Moves (env : Env) (config : Config) (i : InputId) (sweep : Sweep) : Prop :=
  let after := pass env config i sweep
  entries after.backlog.queues < entries sweep.backlog.queues ∨ sweep.total < after.total ∨ ¬ Going config after

def Ends (env : Env) (config : Config) (i : InputId) (engine : Engine) : Prop :=
  ∃ n, ¬ Going config (passes env config i n engine)

section

variable {env : Env} {config : Config} {i : InputId} {sweep : Sweep}

private theorem pass_passed (sweep : Sweep) :
    Passed env (List.range sweep.backlog.queues.length) sweep.total 0 sweep.engine
      ((pass env config i sweep).total, (pass env config i sweep).empty, (pass env config i sweep).engine) :=
  visitQueues_passed _ _ _ _

private theorem empty_lt_iff :
    (List.range sweep.backlog.queues.length).countP (fun position => (first sweep.backlog position).isNone) <
        sweep.backlog.queues.length ↔ Waiting sweep := by
  have most : (List.range sweep.backlog.queues.length).countP (fun position => (first sweep.backlog position).isNone) ≤
      sweep.backlog.queues.length := by
    have bound := @countP_le_length _ (fun position => (first sweep.backlog position).isNone)
      (List.range sweep.backlog.queues.length)
    rwa [length_range] at bound
  have all : (List.range sweep.backlog.queues.length).countP (fun position => (first sweep.backlog position).isNone) =
      sweep.backlog.queues.length ↔ ∀ queue ∈ sweep.backlog.queues, queue.chunks = [] := by
    have counted : (List.range sweep.backlog.queues.length).countP
          (fun position => (first sweep.backlog position).isNone) = (List.range sweep.backlog.queues.length).length ↔
        ∀ position ∈ List.range sweep.backlog.queues.length, (first sweep.backlog position).isNone = true :=
      countP_eq_length
    rw [length_range] at counted
    rw [counted]
    constructor
    · intro each queue member
      obtain ⟨position, here⟩ := List.getElem?_of_mem member
      have bound := (List.getElem?_eq_some_iff.mp here).1
      have nobody := each position (mem_range.mpr bound)
      unfold first at nobody
      rw [here, bind_some, isNone_iff_eq_none] at nobody
      exact List.head?_eq_none_iff.mp nobody
    · intro each position member
      have here := List.getElem?_eq_getElem (mem_range.mp member)
      unfold first
      rw [here, bind_some, each _ (getElem_mem _)]
      rfl
  unfold Waiting
  constructor
  · intro fewer
    by_contra nothing
    have blank : ∀ queue ∈ sweep.backlog.queues, queue.chunks = [] :=
      fun queue member => by_contra fun filled => nothing ⟨queue, member, filled⟩
    exact absurd (all.mpr blank) (Nat.ne_of_lt fewer)
  · rintro ⟨queue, member, filled⟩
    exact Nat.lt_of_le_of_ne most fun same => filled (all.mp same queue member)

private theorem pass_held (goes : Going config sweep)
    (held : Held env (List.range sweep.backlog.queues.length) sweep.engine) :
    (pass env config i sweep).backlog = sweep.backlog ∧ (pass env config i sweep).total = sweep.total ∧
      (pass env config i sweep).engine.tick = sweep.engine.tick + sweep.heads.length ∧
      (Going config (pass env config i sweep) ↔ Waiting sweep) := by
  obtain ⟨total, empty, storage, tick⟩ := (@pass_passed env config i sweep).of_held held
  simp only at total empty storage tick
  have backlog : (pass env config i sweep).backlog = sweep.backlog := congrArg Storage.backlog storage
  refine ⟨backlog, total, tick, ?_⟩
  unfold Going
  rw [backlog, total, empty, Nat.zero_add]
  exact (and_iff_right goes.1).trans empty_lt_iff

private theorem pass_moved (unheld : ¬ Held env (List.range sweep.backlog.queues.length) sweep.engine) :
    entries (pass env config i sweep).backlog.queues < entries sweep.backlog.queues :=
  (pass_passed sweep).of_moved unheld

private theorem moves_iff (goes : Going config sweep) : Moves env config i sweep ↔ ¬ Blocked env sweep := by
  unfold Moves Blocked
  by_cases held : Held env (List.range sweep.backlog.queues.length) sweep.engine
  · obtain ⟨backlog, total, -, going⟩ := @pass_held env config i sweep goes held
    simp [backlog, total, going, held]
  · exact ⟨fun _ both => held both.2, fun _ => .inl (pass_moved held)⟩

theorem Jammed.held (jammed : Jammed env sweep) : Held env (List.range sweep.backlog.queues.length) sweep.engine := by
  intro k cio found
  obtain ⟨down, refused⟩ := jammed.2 cio (mem_of_getElem? found)
  exact ⟨down, refused _ (Nat.le_add_right _ _)⟩

theorem Jammed.pass (jammed : Jammed env sweep) (goes : Going config sweep) :
    Going config (QueueChunks.pass env config i sweep) ∧ Jammed env (QueueChunks.pass env config i sweep) := by
  obtain ⟨backlog, -, tick, going⟩ := @pass_held env config i sweep goes jammed.held
  refine ⟨going.mpr jammed.1, ?_⟩
  unfold Jammed Waiting Sweep.heads
  rw [backlog, tick]
  refine ⟨jammed.1, fun cio member => ?_⟩
  obtain ⟨down, refused⟩ := jammed.2 cio member
  exact ⟨down, fun tick later => refused tick (Nat.le_trans (Nat.le_add_right _ _) later)⟩

private theorem jammed_of_settled (goes : ∀ n, Going config (Loop.passes (Going config) (pass env config i) n sweep))
    (settled : ∀ n, entries (Loop.passes (Going config) (pass env config i) n sweep).backlog.queues =
      entries sweep.backlog.queues) : Jammed env sweep := by
  -- after each pass the backlog is as it was, and all the calls so far were refused
  have held : ∀ n, (Loop.passes (Going config) (pass env config i) n sweep).backlog = sweep.backlog ∧
      (Loop.passes (Going config) (pass env config i) n sweep).engine.tick =
        sweep.engine.tick + n * sweep.heads.length ∧
      Held env (List.range sweep.backlog.queues.length) (Loop.passes (Going config) (pass env config i) n sweep).engine := by
    have still : ∀ n, Held env
        (List.range (Loop.passes (Going config) (pass env config i) n sweep).backlog.queues.length)
        (Loop.passes (Going config) (pass env config i) n sweep).engine := by
      intro n
      by_contra unheld
      have fewer := @pass_moved env config i _ unheld
      have next : Loop.passes (Going config) (pass env config i) (n + 1) sweep =
          pass env config i (Loop.passes (Going config) (pass env config i) n sweep) := Loop.step_going (goes n)
      rw [← next, settled, settled] at fewer
      exact Nat.lt_irrefl _ fewer
    intro n
    induction n with
    | zero => exact ⟨rfl, by rw [zero_mul]; rfl, still 0⟩
    | succ n ih =>
      obtain ⟨backlog, tick, -⟩ := ih
      have next : Loop.passes (Going config) (pass env config i) (n + 1) sweep =
          pass env config i (Loop.passes (Going config) (pass env config i) n sweep) := Loop.step_going (goes n)
      obtain ⟨same, -, later, -⟩ := @pass_held env config i _ (goes n) (still n)
      have again := still (n + 1)
      rw [next] at again ⊢
      have heads : (Loop.passes (Going config) (pass env config i) n sweep).heads = sweep.heads := by
        unfold Sweep.heads
        rw [backlog]
      rw [same, backlog] at again
      refine ⟨same.trans backlog, ?_, again⟩
      rw [later, tick, heads, succ_mul, Nat.add_assoc]
  have waiting : Waiting sweep := by
    have next : Loop.passes (Going config) (pass env config i) 1 sweep = pass env config i sweep := Loop.step_going (goes 0)
    have going := goes 1
    rw [next] at going
    exact (@pass_held env config i sweep (goes 0) (held 0).2.2).2.2.2.mp going
  refine ⟨waiting, fun cio member => ?_⟩
  obtain ⟨k, found⟩ := List.getElem?_of_mem member
  refine ⟨((held 0).2.2 k cio found).1, fun tick later => ?_⟩
  -- the call is the one for some head in some pass
  have some_head : 0 < sweep.heads.length := length_pos_of_mem member
  have place : (tick - sweep.engine.tick) % sweep.heads.length < sweep.heads.length := mod_lt _ some_head
  obtain ⟨backlog, ticks, refused⟩ := held ((tick - sweep.engine.tick) / sweep.heads.length)
  have listed := congrArg (fun backlog => QueueChunks.heads backlog (List.range sweep.backlog.queues.length)) backlog
  have there := refused _ _ ((congrArg (·[(tick - sweep.engine.tick) % sweep.heads.length]?) listed).trans
    (List.getElem?_eq_getElem place))
  have same : sweep.engine.tick + (tick - sweep.engine.tick) / sweep.heads.length * sweep.heads.length +
      (tick - sweep.engine.tick) % sweep.heads.length = tick := by
    have parts := div_add_mod' (tick - sweep.engine.tick) sweep.heads.length
    omega
  rw [ticks, same] at there
  exact there.2

private theorem ends_iff_never_jammed (engine : Engine) : Ends env config i engine ↔
      ∀ n, ¬ (Going config (passes env config i n engine) ∧ Jammed env (passes env config i n engine)) :=
  @Loop.ends_iff Sweep (Going config) _ (pass env config i) (fun sweep => entries sweep.backlog.queues) (Jammed env)
    (fun sweep => (pass_passed sweep).entries_le) (fun _ goes jammed => jammed.pass goes)
    (fun _ goes settled => jammed_of_settled goes settled) (start i engine)

/-- The loop ends exactly when no pass begins with every chunk at the head of a queue refused for
ever, and a pass moves exactly when not every chunk at the head of a queue is refused in it. -/
theorem queueChunks_ends_iff (env : Env) (config : Config) (i : InputId) (engine : Engine) : (Ends env config i engine ↔
        ∀ n, ¬ (Going config (passes env config i n engine) ∧ Jammed env (passes env config i n engine))) ∧
      ∀ sweep, Going config sweep → (Moves env config i sweep ↔ ¬ Blocked env sweep) :=
  ⟨ends_iff_never_jammed engine, fun _ goes => moves_iff goes⟩

end

def coldChunk : CioChunk :=
  { ref := 7, stream := 9, file := true, realSize := 100, dataSize := 10, metaSize := 2, tag := [], eventType := .logs
    up := false, locked := true, sound := by decide }

def coldBacklog : Engine :=
  (started Sample.noDisk).withStorage fun storage =>
    { storage with backlog := { cio := [coldChunk], queues := [⟨0, [⟨7, 100⟩]⟩] } }

def oneOutput : Config := Sample.config .fs [Sample.output 0] (by decide)

/-- `cio_chunk_up_force` answers `CIO_ERROR` or `CIO_RETRY` to every call. -/
def unwilling : Env := Sample.env fun site _ => decide (site = .chunkUp ∨ site = .chunkCorrupted)

private theorem unwilling_refuses (tick : Nat) : Refuses unwilling tick := ⟨rfl, rfl⟩

theorem pass_repeats : ¬ Ends unwilling oneOutput 9 coldBacklog ∧ Going oneOutput (start 9 coldBacklog) ∧
      ¬ Moves unwilling oneOutput 9 (start 9 coldBacklog) := by
  have goes : Going oneOutput (start 9 coldBacklog) := by decide
  have waiting : Waiting (start 9 coldBacklog) := ⟨_, mem_singleton_self _, cons_ne_nil _ _⟩
  have heads : (start 9 coldBacklog).heads = [coldChunk] := rfl
  have jammed : Jammed unwilling (start 9 coldBacklog) := by
    refine ⟨waiting, fun cio member => ?_⟩
    rw [heads] at member
    cases mem_singleton.mp member
    exact ⟨rfl, fun tick _ => unwilling_refuses tick⟩
  refine ⟨?_, goes, ?_⟩
  · intro ends
    exact (ends_iff_never_jammed coldBacklog).mp ends 0 ⟨goes, jammed⟩
  · intro moves
    exact (moves_iff goes).mp moves ⟨waiting, jammed.held⟩

end FluentBit.QueueChunks
