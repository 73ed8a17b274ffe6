import FluentBit.Engine.Event

/-! What `sb_append_chunk_to_segregated_backlogs` leaves in the queues when it succeeds and when it fails. -/

set_option autoImplicit false

namespace FluentBit.Segregation

open List Nat Bool

def entries (target : ChunkRef) (queue : SbOutQueue) : Nat := queue.chunks.countP (·.chunk = target)

def accepts (config : Config) (tag : Tag) (queue : SbOutQueue) : Bool :=
  config.outputs.any fun o => decide (o.id = queue.ins) && o.routerMatch tag

/-- On failure no queue refers to the chunk and no size has changed; on success
the chunk is in the queues of the outputs that take its tag, once each. -/
def Keeps (env : Env) (config : Config) (cio : CioChunk) (engine : Engine) : Prop :=
  match sbAppendChunkToSegregatedBacklogs env config cio engine with
  | (.ok, after) =>
    ∀ queue ∈ after.storage.backlog.queues,
      entries cio.ref queue = if accepts config cio.tag queue then 1 else 0
  | (_, after) =>
    (∀ queue ∈ after.storage.backlog.queues, entries cio.ref queue = 0) ∧
      after.storage.fsBacklogChunksSize = engine.storage.fsBacklogChunksSize

def routed (config : Config) (tag : Tag) (queue : SbOutQueue) : Bool :=
  accepts config tag queue && decide (queue.ins < routesMaskMaxValue)

private theorem represented (o : Nat) :
    (!RoutesMask.rejects o && decide (RoutesMask.wordIndex o < routesMaskElements)) = decide (o < routesMaskMaxValue) := by
  unfold RoutesMask.rejects RoutesMask.wordIndex routesMaskMaxValue routesMaskElements routesMaskElementBits
  rw [Bool.eq_iff_iff]
  simp only [and_eq_true, not_eq_true', or_eq_false_iff, decide_eq_false_iff_not,
    decide_eq_true_eq, Int.toNat_natCast]
  omega

private theorem getBit_foldl (tag : Tag) (outputs : List OutputInstance) (mask : RoutesMask) (o : OutId) :
    (outputs.foldl (fun mask o => if o.routerMatch tag then mask.setBit o.id else mask) mask).getBit o =
      (mask.getBit o || (outputs.any fun out => decide (out.id = o) && out.routerMatch tag) &&
        decide (o < routesMaskMaxValue)) := by
  induction outputs generalizing mask with
  | nil => simp
  | cons out outputs ih =>
    rw [foldl_cons, ih, any_cons]
    cases matched : out.routerMatch tag with
    | false => simp
    | true =>
      have same : decide ((out.id : Int) = (o : Int)) = decide (out.id = o) := by
        rw [Bool.eq_iff_iff, decide_eq_true_eq, decide_eq_true_eq]
        exact Int.ofNat_inj
      simp only [if_true, RoutesMask.getBit_setBit, same, Bool.and_true, Bool.and_assoc, represented]
      cases mask.getBit o <;> cases decide (out.id = o) <;> cases decide (o < routesMaskMaxValue) <;> simp

variable (config : Config)

private theorem getBit_setByTag (tag : Tag) (queue : SbOutQueue) :
    (routesMaskSetByTag config tag).getBit queue.ins = routed config tag queue := by
  unfold routesMaskSetByTag routed accepts
  rw [getBit_foldl, RoutesMask.getBit_cleared, Bool.false_or]

/-! ## The loop over the queues -/

variable (queues : List SbOutQueue) (engine : Engine)

section Loop

variable {env : Env} {target : ChunkRef} {mask : RoutesMask} {chunkSize : SizeT}

def placed (target : ChunkRef) (mask : RoutesMask) (chunkSize : SizeT) (queue : SbOutQueue) : SbOutQueue :=
  if mask.getBit queue.ins then { queue with chunks := queue.chunks ++ [⟨target, chunkSize⟩] } else queue

private theorem entries_placed (queue : SbOutQueue) : entries target (placed target mask chunkSize queue) =
      entries target queue + if mask.getBit queue.ins then 1 else 0 := by
  unfold placed entries
  split
  · simp
  · rfl

def Allocates (env : Env) (count tick : Nat) : Prop := ∀ index < count, env.ok .queueAlloc (tick + index) = true

private theorem allocates_succ {count tick : Nat} :
    Allocates env (count + 1) tick ↔ env.ok .queueAlloc tick = true ∧ Allocates env count (tick + 1) := by
  constructor
  · intro all
    refine ⟨all 0 (succ_pos count), fun index inside => ?_⟩
    rw [Nat.add_assoc, Nat.add_comm 1]
    exact all (index + 1) (succ_lt_succ inside)
  · rintro ⟨first, rest⟩ index inside
    cases index with
    | zero => exact first
    | succ index =>
      rw [Nat.add_comm index, ← Nat.add_assoc]
      exact rest index (lt_of_succ_lt_succ inside)

def chosen (mask : RoutesMask) (queues : List SbOutQueue) : List SbOutQueue :=
  queues.filter fun queue => mask.getBit queue.ins

variable {queue : SbOutQueue}

private theorem chosen_cons (inMask : mask.getBit queue.ins = true) :
    chosen mask (queue :: queues) = queue :: chosen mask queues :=
  filter_cons_of_pos inMask

private theorem chosen_skip (outside : ¬ mask.getBit queue.ins = true) :
    chosen mask (queue :: queues) = chosen mask queues :=
  filter_cons_of_neg outside

theorem appendToQueues_ok (all : Allocates env (chosen mask queues).length engine.tick) :
    ∃ after, appendToQueues env target mask chunkSize queues engine =
      (true, queues.map (placed target mask chunkSize), after) := by
  induction queues generalizing engine with
  | nil => exact ⟨engine, rfl⟩
  | cons queue queues ih =>
    unfold appendToQueues
    by_cases inMask : mask.getBit queue.ins = true
    · rw [chosen_cons queues inMask, length_cons, allocates_succ] at all
      obtain ⟨first, rest⟩ := all
      have answered : engine.answers env .queueAlloc = true := first
      obtain ⟨after, appended⟩ := ih (engine.tock.withStorage (addBacklogSize queue.ins chunkSize)) rest
      simp only [inMask, answered, if_true, appended, map_cons, placed]
      exact ⟨after, rfl⟩
    · rw [chosen_skip queues inMask] at all
      obtain ⟨after, appended⟩ := ih engine all
      simp only [inMask, false_eq_true, if_false, appended, map_cons, placed]
      exact ⟨after, rfl⟩

theorem appendToQueues_first (needed : chosen mask queues ≠ []) (refused : env.ok .queueAlloc engine.tick = false) :
    appendToQueues env target mask chunkSize queues engine = (false, queues, engine.tock) := by
  induction queues with
  | nil => exact absurd rfl needed
  | cons queue queues ih =>
    unfold appendToQueues
    have answered : engine.answers env .queueAlloc = false := refused
    by_cases inMask : mask.getBit queue.ins = true
    · simp [inMask, answered]
    · rw [chosen_skip queues inMask] at needed
      simp [inMask, ih needed]

private theorem appendToQueues_refused (refused : ¬ Allocates env (chosen mask queues).length engine.tick) :
    ∃ changed after, appendToQueues env target mask chunkSize queues engine = (false, changed, after) := by
  induction queues generalizing engine with
  | nil => exact absurd (fun index inside => absurd inside (Nat.not_lt_zero index)) refused
  | cons queue queues ih =>
    unfold appendToQueues
    by_cases inMask : mask.getBit queue.ins = true
    · by_cases answered : engine.answers env .queueAlloc = true
      · rw [chosen_cons queues inMask, length_cons, allocates_succ] at refused
        have later := fun rest => refused ⟨answered, rest⟩
        obtain ⟨changed, after, appended⟩ := ih (engine.tock.withStorage (addBacklogSize queue.ins chunkSize)) later
        simp only [inMask, answered, if_true, appended]
        exact ⟨_, after, rfl⟩
      · simp only [inMask, answered, if_true, false_eq_true, if_false]
        exact ⟨_, _, rfl⟩
    · rw [chosen_skip queues inMask] at refused
      obtain ⟨changed, after, appended⟩ := ih engine refused
      simp only [inMask, false_eq_true, if_false, appended]
      exact ⟨_, after, rfl⟩

private theorem appendToQueues_later (first : env.ok .queueAlloc engine.tick = true)
    (refused : ¬ Allocates env (chosen mask queues).length engine.tick) :
    ∃ changed after, appendToQueues env target mask chunkSize queues engine = (false, changed, after) ∧
      ∃ queue ∈ changed, entries target queue ≠ 0 := by
  induction queues with
  | nil => exact absurd (fun index inside => absurd inside (Nat.not_lt_zero index)) refused
  | cons queue queues ih =>
    unfold appendToQueues
    have answered : engine.answers env .queueAlloc = true := first
    by_cases inMask : mask.getBit queue.ins = true
    · rw [chosen_cons queues inMask, length_cons, allocates_succ] at refused
      have later := fun rest => refused ⟨first, rest⟩
      have stuck : ∃ changed after, appendToQueues env target mask chunkSize queues
          (engine.tock.withStorage (addBacklogSize queue.ins chunkSize)) = (false, changed, after) :=
        appendToQueues_refused queues _ later
      obtain ⟨changed, after, appended⟩ := stuck
      simp only [inMask, answered, if_true, appended]
      refine ⟨_, after, rfl, _, mem_cons_self, ?_⟩
      unfold entries
      rw [countP_append, countP_singleton, if_pos (decide_eq_true rfl)]
      exact succ_ne_zero _
    · rw [chosen_skip queues inMask] at refused
      obtain ⟨changed, after, appended, queue', member, left⟩ := ih refused
      simp only [inMask, false_eq_true, if_false, appended]
      exact ⟨_, after, rfl, queue', mem_cons_of_mem _ member, left⟩

end Loop

/-- The tag cannot be read or no entry was placed before the first one was refused, and no queue held the chunk;
or no entry is refused and the mask holds every output that takes the tag. -/
def Condition (env : Env) (config : Config) (cio : CioChunk) (engine : Engine) : Prop :=
  let queues := engine.storage.backlog.queues
  let needed := (queues.filter (routed config cio.tag)).length
  if env.ok .chunkTag engine.tick = false ∨ needed ≠ 0 ∧ env.ok .queueAlloc (engine.tick + 1) = false then
    ∀ queue ∈ queues, entries cio.ref queue = 0
  else
    Allocates env needed (engine.tick + 1) ∧
      ∀ queue ∈ queues, entries cio.ref queue =
        if accepts config cio.tag queue ∧ routesMaskMaxValue ≤ queue.ins then 1 else 0

private theorem chosen_setByTag (tag : Tag) (queues : List SbOutQueue) :
    chosen (routesMaskSetByTag config tag) queues = queues.filter (routed config tag) := by
  unfold chosen
  exact filter_congr fun queue _ => getBit_setByTag config tag queue

theorem sbAppend_eq {env : Env} {config : Config} {cio : CioChunk} {engine : Engine}
    (tagRead : env.ok .chunkTag engine.tick = true) {ok : Bool} {queues : List SbOutQueue} {after : Engine}
    (appended : appendToQueues env cio.ref (routesMaskSetByTag config cio.tag) (BitVec.ofNat 64 cio.realSize)
      engine.storage.backlog.queues engine.tock = (ok, queues, after)) :
    sbAppendChunkToSegregatedBacklogs env config cio engine =
      (if ok then .ok else .noMemory, after.withStorage (setQueues queues)) := by
  have answered : engine.answers env .chunkTag = true := tagRead
  have same : engine.tock.storage = engine.storage := rfl
  unfold sbAppendChunkToSegregatedBacklogs
  simp [answered, same, appended]

private theorem accepts_placed (tag : Tag) (target : ChunkRef) (mask : RoutesMask) (chunkSize : SizeT)
    (queue : SbOutQueue) :
    accepts config tag (placed target mask chunkSize queue) = accepts config tag queue := by
  unfold placed
  split <;> rfl

private theorem entries_wanted_iff (tag : Tag) (target : ChunkRef) (chunkSize : SizeT) (queue : SbOutQueue) :
    entries target (placed target (routesMaskSetByTag config tag) chunkSize queue) =
        (if accepts config tag (placed target (routesMaskSetByTag config tag) chunkSize queue) then 1 else 0) ↔
      entries target queue = if accepts config tag queue ∧ routesMaskMaxValue ≤ queue.ins then 1 else 0 := by
  rw [entries_placed, getBit_setByTag, accepts_placed]
  unfold routed
  by_cases inMask : queue.ins < routesMaskMaxValue
  · cases accepts config tag queue <;> simp [inMask, Nat.not_le.mpr inMask]
  · cases accepts config tag queue <;> simp [inMask, Nat.not_lt.mp inMask]

/-- A chunk that was in no queue is placed as described when every output that takes its tag has a bit in the
mask, unless an entry is refused after another one was placed. -/
theorem placed_iff (env : Env) (config : Config) (cio : CioChunk) (engine : Engine) :
    Keeps env config cio engine ↔ Condition env config cio engine := by
  have chosen_eq := chosen_setByTag config cio.tag engine.storage.backlog.queues
  unfold Keeps Condition
  dsimp only
  cases tagRead : env.ok .chunkTag engine.tick with
  | false =>
    have answered : engine.answers env .chunkTag = false := tagRead
    have result : sbAppendChunkToSegregatedBacklogs env config cio engine = (.noTag, engine.tock) := by
      unfold sbAppendChunkToSegregatedBacklogs
      simp [answered]
    rw [result, if_pos (.inl rfl)]
    exact and_iff_left rfl
  | true =>
    rw [← chosen_eq]
    by_cases atFirst : (chosen (routesMaskSetByTag config cio.tag) engine.storage.backlog.queues).length ≠ 0 ∧
        env.ok .queueAlloc (engine.tick + 1) = false
    · obtain ⟨needed, refused⟩ := atFirst
      have nonempty : chosen (routesMaskSetByTag config cio.tag) engine.storage.backlog.queues ≠ [] :=
        ne_nil_of_length_pos (Nat.pos_of_ne_zero needed)
      rw [if_pos (.inr ⟨needed, refused⟩),
        sbAppend_eq tagRead (appendToQueues_first _ engine.tock nonempty refused), if_neg Bool.false_ne_true]
      exact and_iff_left rfl
    · have otherwise : ¬ (true = false ∨ (chosen (routesMaskSetByTag config cio.tag)
          engine.storage.backlog.queues).length ≠ 0 ∧ env.ok .queueAlloc (engine.tick + 1) = false) := by
        intro either
        cases either with
        | inl wrong => cases wrong
        | inr first => exact atFirst first
      rw [if_neg otherwise]
      by_cases all : Allocates env (chosen (routesMaskSetByTag config cio.tag)
          engine.storage.backlog.queues).length (engine.tick + 1)
      · obtain ⟨after, appended⟩ := appendToQueues_ok _ engine.tock all
        rw [sbAppend_eq tagRead appended, and_iff_right all]
        change (∀ queue ∈ List.map _ _, _) ↔ _
        rw [forall_mem_map]
        exact forall₂_congr fun queue _ => entries_wanted_iff config cio.tag cio.ref _ queue
      · have first : env.ok .queueAlloc (engine.tick + 1) = true := by
          by_contra refused
          refine atFirst ⟨?_, by simpa using refused⟩
          intro none_needed
          rw [none_needed] at all
          exact all fun index inside => absurd inside (Nat.not_lt_zero index)
        obtain ⟨changed, after, appended, queue, member, left⟩ := appendToQueues_later _ engine.tock first all
        rw [sbAppend_eq tagRead appended, if_neg Bool.false_ne_true]
        constructor
        · intro kept
          exact absurd (kept.1 queue member) left
        · intro condition
          exact absurd condition.1 all

def sampleChunk : CioChunk :=
  { ref := 7, stream := 9, file := true, realSize := 100, dataSize := 10, metaSize := 2, tag := [],
    eventType := .logs, up := true, locked := false, sound := by decide }

def sampleConfig : Config := Sample.config .fs [Sample.output 0, Sample.output 1] (by decide)

/-- The second entry cannot be allocated, and the queue of the first output keeps the chunk. -/
theorem entry_left_behind :
    ¬ Keeps (Sample.env fun site tick => decide (site = .queueAlloc) && decide (tick = 2)) sampleConfig sampleChunk
      ((started Sample.noDisk).withStorage (sbAllocateBacklogs sampleConfig)) := by
  intro kept
  have first := kept.1 ⟨0, [⟨7, 100⟩]⟩ mem_cons_self
  cases first

end FluentBit.Segregation
