import FluentBit.Foundation.Runs
import FluentBit.Storage.QueueChunks
import FluentBit.Storage.Segregation

/-! What the outputs are charged with for the chunks of the backlog, over the calls that fill and
empty its queues. -/

set_option autoImplicit false

namespace FluentBit.BacklogAccounts

open List Tally
open QueueChunks

/-- The calls on the queues. The loop of `cb_queue_chunks` is cut after a number of passes. -/
inductive Op where
  | segregate
  | release (o : OutId) (required : Int)
  | queueChunks (i : InputId) (passes : Nat)

def step (env : Env) (config : Config) : Op → Engine → Engine
  | .segregate => sbSegregateChunks env config
  | .release o required => fun engine => (sbReleaseOutputQueueSpace env config o required engine).2
  | .queueChunks i passes => cbQueueChunks env config i passes

def queued (queue : SbOutQueue) : SizeT := (queue.chunks.map (·.size)).sum

def queuedFor (o : OutId) (queues : List SbOutQueue) : SizeT :=
  (queues.map fun queue => if queue.ins = o then queued queue else 0).sum

/-- Each output is charged with the sizes of its entries, and no entry refers to a chunk that was
closed or is the engine's. -/
def Accurate (engine : Engine) : Prop :=
  (∀ o, engine.storage.fsBacklogChunksSize o = queuedFor o engine.storage.backlog.queues) ∧
    ∀ queue ∈ engine.storage.backlog.queues, ∀ entry ∈ queue.chunks,
      ∃ cio, chunkOf engine.storage.backlog entry = some cio

/-! ### The accounts -/

def Linked (cios : List CioChunk) (entry : SbOutChunk) : Prop :=
  ∃ cio ∈ cios, cio.ref = entry.chunk ∧ entry.size = BitVec.ofNat 64 cio.realSize

def Free (c : ChunkRef) (queues : List SbOutQueue) : Prop :=
  ∀ queue ∈ queues, ∀ entry ∈ queue.chunks, entry.chunk ≠ c

structure Kept (storage : Storage) : Prop where
  distinct : (storage.backlog.cio.map (·.ref)).Nodup
  files : ∀ cio ∈ storage.backlog.cio, cio.file = true
  once : ∀ queue ∈ storage.backlog.queues, (queue.chunks.map (·.chunk)).Nodup
  linked : ∀ queue ∈ storage.backlog.queues, ∀ entry ∈ queue.chunks, Linked storage.backlog.cio entry
  balanced : ∀ o, storage.fsBacklogChunksSize o = queuedFor o storage.backlog.queues

section

variable {env : Env} {config : Config} {storage : Storage} {engine : Engine} {c : ChunkRef}

theorem Kept.congr {other : Storage} (kept : Kept storage) (backlog : other.backlog = storage.backlog)
    (sizes : other.fsBacklogChunksSize = storage.fsBacklogChunksSize) : Kept other := by
  constructor
  · rw [backlog]
    exact kept.distinct
  · rw [backlog]
    exact kept.files
  · rw [backlog]
    exact kept.once
  · rw [backlog]
    exact kept.linked
  · rw [backlog, sizes]
    exact kept.balanced

theorem Kept.find (kept : Kept storage) {cio : CioChunk} (member : cio ∈ storage.backlog.cio) :
    storage.backlog.cio.find? (·.ref = cio.ref) = some cio := by
  cases found : storage.backlog.cio.find? (·.ref = cio.ref) with
  | none => exact absurd (decide_eq_true rfl) (List.find?_eq_none.mp found cio member)
  | some other =>
    have same : other.ref = cio.ref := by simpa using List.find?_some found
    have listed := mem_of_find?_eq_some found
    rw [inj_on_of_nodup_map kept.distinct listed member same]

theorem Kept.accurate (kept : Kept engine.storage) : Accurate engine := by
  refine ⟨kept.balanced, fun queue queueListed entry listed => ?_⟩
  obtain ⟨cio, member, same, -⟩ := kept.linked queue queueListed entry listed
  refine ⟨cio, ?_⟩
  unfold chunkOf
  rw [← same]
  exact kept.find member

theorem Kept.setCio (kept : Kept storage) {change : CioChunk → CioChunk}
    (same : ∀ cio ∈ storage.backlog.cio, cio.ref = c →
      (change cio).ref = c ∧ (change cio).realSize = cio.realSize ∧ (change cio).file = true) :
    Kept (setBacklogCio c change storage) := by
  have each : ∀ cio ∈ storage.backlog.cio, (if cio.ref = c then change cio else cio).ref = cio.ref ∧
      (if cio.ref = c then change cio else cio).realSize = cio.realSize ∧
      (if cio.ref = c then change cio else cio).file = true := by
    intro cio member
    split
    next here =>
      obtain ⟨ref, size, file⟩ := same cio member here
      exact ⟨ref.trans here.symm, size, file⟩
    · exact ⟨rfl, rfl, kept.files cio member⟩
  constructor
  · have refs : (storage.backlog.cio.map fun cio => if cio.ref = c then change cio else cio).map (·.ref) =
        storage.backlog.cio.map (·.ref) := by
      rw [map_map]
      exact map_congr_left fun cio member => (each cio member).1
    change (List.map _ (List.map _ _)).Nodup
    rw [refs]
    exact kept.distinct
  · intro cio member
    obtain ⟨old, oldMember, rfl⟩ := mem_replace.mp member
    exact (each old oldMember).2.2
  · exact kept.once
  · intro queue queueListed entry listed
    obtain ⟨cio, member, ref, size⟩ := kept.linked queue queueListed entry listed
    obtain ⟨sameRef, sameSize, -⟩ := each cio member
    exact ⟨_, mem_replace.mpr ⟨cio, member, rfl⟩, sameRef.trans ref, size.trans (by rw [sameSize])⟩
  · exact kept.balanced

theorem Kept.close (kept : Kept storage) (free : Free c storage.backlog.queues) :
    Kept (closeBacklogChunk c storage) := by
  constructor
  · exact kept.distinct.sublist (filter_sublist.map _)
  · intro cio member
    exact kept.files cio (mem_discard.mp member).1
  · exact kept.once
  · intro queue queueListed entry listed
    obtain ⟨cio, member, ref, size⟩ := kept.linked queue queueListed entry listed
    have apart : cio.ref ≠ c := fun same => free queue queueListed entry listed (ref.symm.trans same)
    exact ⟨cio, mem_discard.mpr ⟨member, apart⟩, ref, size⟩
  · exact kept.balanced

/-! ### Taking a chunk out of the queues -/

theorem queuedFor_cons (o : OutId) (queue : SbOutQueue) (queues : List SbOutQueue) :
    queuedFor o (queue :: queues) = (if queue.ins = o then queued queue else 0) + queuedFor o queues := by
  unfold queuedFor
  rw [map_cons, sum_cons]

variable {size : SizeT} {queues : List SbOutQueue} {cio : CioChunk} {mask : RoutesMask}

private theorem remove_balance (queue : SbOutQueue) (storage : Storage)
    (sized : ∀ entry ∈ queue.chunks, entry.chunk = c → entry.size = size) (o : OutId) :
    (sbRemoveChunkFromSegregatedBacklog c size queue storage).2.fsBacklogChunksSize o +
        (if queue.ins = o then queued queue else 0) =
      storage.fsBacklogChunksSize o + if queue.ins = o then queued (without c queue) else 0 := by
  unfold sbRemoveChunkFromSegregatedBacklog
  cases found : queue.chunks.find? (·.chunk = c) with
  | none =>
    have same : without c queue = queue := by
      unfold without
      rw [eraseP_of_find?_none found]
    rw [same]
  | some entry =>
    have chunk : entry.chunk = c := by simpa using List.find?_some found
    have charged := sized entry (mem_of_find?_eq_some found) chunk
    simp only [subBacklogSize]
    by_cases mine : queue.ins = o
    · rw [if_pos mine, if_pos mine, if_pos mine.symm, ← charged]
      have left : queued (without c queue) + entry.size = queued queue := sum_eraseP SbOutChunk.size found
      rw [← left]
      abel
    · rw [if_neg mine, if_neg mine, if_neg (Ne.symm mine)]

private theorem removeFromQueues_balance (queues : List SbOutQueue) (storage : Storage)
    (sized : ∀ queue ∈ queues, ∀ entry ∈ queue.chunks, entry.chunk = c → entry.size = size) (o : OutId) :
    (removeFromQueues c size queues storage).2.fsBacklogChunksSize o + queuedFor o queues =
      storage.fsBacklogChunksSize o + queuedFor o (queues.map (without c)) := by
  induction queues generalizing storage with
  | nil => rfl
  | cons queue queues ih =>
    have one := remove_balance queue storage (sized queue mem_cons_self) o
    have rest := ih (sbRemoveChunkFromSegregatedBacklog c size queue storage).2
      fun other member => sized other (mem_cons_of_mem _ member)
    unfold removeFromQueues
    simp only [map_cons, queuedFor_cons]
    have ins : (without c queue).ins = queue.ins := rfl
    rw [ins, add_left_comm, rest, add_left_comm, ← add_assoc, one, add_assoc]

private theorem removeFromQueues_cio {size : SizeT} (queues : List SbOutQueue) (storage : Storage) :
    (removeFromQueues c size queues storage).2.backlog = storage.backlog := by
  induction queues generalizing storage with
  | nil => rfl
  | cons queue queues ih =>
    have one : (sbRemoveChunkFromSegregatedBacklog c size queue storage).2.backlog = storage.backlog := by
      unfold sbRemoveChunkFromSegregatedBacklog
      cases queue.chunks.find? (·.chunk = c) with
      | none => rfl
      | some entry => rfl
    exact (ih _).trans one

private theorem removed_cio (engine : Engine) :
    (sbRemoveChunkFromSegregatedBacklogs env c engine).storage.backlog.cio = engine.storage.backlog.cio := by
  have same := @removeFromQueues_cio c (cioChunkGetRealSize env c engine) engine.storage.backlog.queues engine.storage
  have cios := congrArg Backlog.cio same
  exact cios

theorem mem_without {queue : SbOutQueue} {entry : SbOutChunk} (listed : entry ∈ (without c queue).chunks) :
    entry ∈ queue.chunks :=
  mem_of_mem_eraseP listed

theorem free_without (once : ∀ queue ∈ queues, (queue.chunks.map (·.chunk)).Nodup) :
    Free c (queues.map (without c)) := by
  intro queue member entry listed same
  obtain ⟨old, oldMember, rfl⟩ := mem_map.mp member
  have single := once old oldMember
  have none_left : (without c old).chunks.countP (·.chunk = c) = 0 := by
    have counted := countP_eraseP_self (fun entry : SbOutChunk => decide (entry.chunk = c)) old.chunks
    have most : old.chunks.countP (fun entry => decide (entry.chunk = c)) ≤ 1 := by
      apply countP_le_one single
      intro left _ right _ leftSame rightSame
      exact (of_decide_eq_true leftSame).trans (of_decide_eq_true rightSame).symm
    exact counted.trans (Nat.sub_eq_zero_of_le most)
  exact absurd (decide_eq_true same) (countP_eq_zero.mp none_left entry listed)

theorem Kept.remove (kept : Kept engine.storage) {cio : CioChunk} (member : cio ∈ engine.storage.backlog.cio) :
    Kept (sbRemoveChunkFromSegregatedBacklogs env cio.ref engine).storage ∧
      Free cio.ref (sbRemoveChunkFromSegregatedBacklogs env cio.ref engine).storage.backlog.queues := by
  have size : cioChunkGetRealSize env cio.ref engine = BitVec.ofNat 64 cio.realSize := by
    unfold cioChunkGetRealSize
    rw [kept.find member]
  have queues := @removed_queues env cio.ref engine
  have cios := @removed_cio env cio.ref engine
  refine ⟨?_, ?_⟩
  · constructor
    · rw [cios]
      exact kept.distinct
    · rw [cios]
      exact kept.files
    · rw [queues, forall_mem_map]
      intro queue queueListed
      exact (kept.once queue queueListed).sublist (eraseP_sublist.map _)
    · rw [queues, cios, forall_mem_map]
      intro queue queueListed entry listed
      exact kept.linked queue queueListed entry (mem_without listed)
    · intro o
      rw [queues]
      have sized : ∀ queue ∈ engine.storage.backlog.queues, ∀ entry ∈ queue.chunks, entry.chunk = cio.ref →
          entry.size = cioChunkGetRealSize env cio.ref engine := by
        intro queue queueListed entry listed same
        obtain ⟨other, otherListed, ref, registered⟩ := kept.linked queue queueListed entry listed
        have equal : other = cio := inj_on_of_nodup_map kept.distinct otherListed member (ref.trans same)
        rw [registered, size, equal]
      have balance := removeFromQueues_balance engine.storage.backlog.queues engine.storage sized o
      rw [kept.balanced o, add_comm] at balance
      exact add_left_cancel balance
  · rw [queues]
    exact free_without kept.once

theorem Kept.retire (kept : Kept engine.storage) {cio : CioChunk} (member : cio ∈ engine.storage.backlog.cio) :
    Kept (closeBacklogChunk cio.ref (sbRemoveChunkFromSegregatedBacklogs env cio.ref engine).storage) := by
  obtain ⟨removed, free⟩ := @Kept.remove env engine kept cio member
  exact removed.close free

theorem Kept.releaseQueueLoop (required : SizeT) (entries : List SbOutChunk) (released : SizeT) (engine : Engine)
    (kept : Kept engine.storage) (once : (entries.map (·.chunk)).Nodup)
    (open_ : ∀ entry ∈ entries, ∃ cio ∈ engine.storage.backlog.cio, cio.ref = entry.chunk) :
    Kept (FluentBit.releaseQueueLoop env required entries released engine).2.storage := by
  induction entries generalizing released engine with
  | nil => exact kept
  | cons entry entries ih =>
    obtain ⟨cio, member, same⟩ := open_ entry mem_cons_self
    rw [map_cons, nodup_cons] at once
    have retired := @Kept.retire env engine kept cio member
    rw [same] at retired
    unfold FluentBit.releaseQueueLoop
    simp only
    split
    · exact retired
    · apply ih _ _ retired once.2
      intro later listed
      obtain ⟨other, otherMember, ref⟩ := open_ later (mem_cons_of_mem _ listed)
      have apart : other.ref ≠ entry.chunk := by
        intro equal
        exact once.1 (mem_map.mpr ⟨later, listed, ref.symm.trans equal⟩)
      have stays : other ∈ (sbRemoveChunkFromSegregatedBacklogs env entry.chunk engine).storage.backlog.cio := by
        rw [removed_cio]
        exact otherMember
      exact ⟨other, mem_discard.mpr ⟨stays, apart⟩, ref⟩

theorem Kept.release (kept : Kept engine.storage) (o : OutId) (required : Int) :
    Kept (sbReleaseOutputQueueSpace env config o required engine).2.storage := by
  unfold sbReleaseOutputQueueSpace
  split
  · exact kept
  · cases found : engine.storage.backlog.queues.find? (·.ins = o) with
    | none => exact kept
    | some queue =>
      have listed := mem_of_find?_eq_some found
      apply Kept.releaseQueueLoop _ _ _ _ kept (kept.once queue listed)
      intro entry member
      obtain ⟨cio, cioMember, ref, -⟩ := kept.linked queue listed entry member
      exact ⟨cio, cioMember, ref⟩

theorem Kept.upForce (kept : Kept engine.storage) (c : ChunkRef) {outcome : CioUp} {loaded : Engine}
    (answer : cioChunkUpForce env c engine = (outcome, loaded)) :
    Kept loaded.storage ∧ loaded.storage.backlog.queues = engine.storage.backlog.queues ∧
      (outcome = .ok → ∃ cio, loaded.storage.backlog.cio.find? (·.ref = c) = some cio) := by
  unfold cioChunkUpForce at answer
  cases found : engine.storage.backlog.cio.find? (·.ref = c) with
  | none =>
    rw [found] at answer
    cases answer
    exact ⟨kept, rfl, CioUp.noConfusion⟩
  | some cio =>
    rw [found] at answer
    simp only at answer
    split at answer
    · cases answer
      exact ⟨kept, rfl, fun _ => ⟨cio, found⟩⟩
    · split at answer
      · cases answer
        have setUp : Kept (setBacklogCio c CioChunk.setUp engine.storage) :=
          kept.setCio fun cio member same => ⟨same, rfl, kept.files cio member⟩
        have there := @find?_replace _ _ _ CioChunk.ref _ CioChunk.setUp _ _ (fun _ => rfl) found
        exact ⟨setUp, rfl, fun _ => ⟨_, there⟩⟩
      · split at answer
        · cases answer
          exact ⟨kept, rfl, CioUp.noConfusion⟩
        · cases answer
          exact ⟨kept, rfl, CioUp.noConfusion⟩

/-! ### Filling the queues -/

def Undivided (env : Env) (config : Config) (cio : CioChunk) (engine : Engine) : Prop :=
  env.ok .chunkTag engine.tick = false ∨ env.ok .queueAlloc (engine.tick + 1) = false ∨
    Segregation.Allocates env
      (Segregation.chosen (routesMaskSetByTag config cio.tag) engine.storage.backlog.queues).length (engine.tick + 1)

def Segregates (env : Env) (config : Config) (c : ChunkRef) (engine : Engine) : Prop :=
  match cioChunkUpForce env c engine with
  | (.ok, loaded) =>
    ∀ cio, loaded.storage.backlog.cio.find? (·.ref = c) = some cio → Undivided env config cio loaded
  | _ => True

/-- The loop of `sb_segregate_chunks` comes to no other chunk. -/
def SegregatesAll (env : Env) (config : Config) : List ChunkRef → Engine → Prop
  | [], _ => True
  | c :: rest, engine =>
    Segregates env config c engine ∧
      match segregateChunk env config c engine with
      | (true, after) => SegregatesAll env config rest after
      | (false, _) => True

private theorem queued_append (queue : SbOutQueue) (size : SizeT) :
    queued { queue with chunks := queue.chunks ++ [⟨c, size⟩] } = queued queue + size := by
  unfold queued
  rw [map_append, sum_append, map_singleton, sum_singleton]

theorem charged (o : OutId) (queue : SbOutQueue) (size : SizeT) (engine : Engine) :
    (engine.tock.withStorage (addBacklogSize queue.ins size)).storage.fsBacklogChunksSize o =
      engine.storage.fsBacklogChunksSize o + if queue.ins = o then size else 0 := by
  change (if o = queue.ins then _ else _) = _
  by_cases mine : queue.ins = o
  · rw [if_pos mine, if_pos mine.symm]
    rfl
  · rw [if_neg mine, if_neg (Ne.symm mine), add_zero]
    rfl

private theorem append_balance {mask : RoutesMask} {size : SizeT} (queues : List SbOutQueue) (engine : Engine) :
    (appendToQueues env c mask size queues engine).2.2.storage.backlog = engine.storage.backlog ∧ ∀ o,
      (appendToQueues env c mask size queues engine).2.2.storage.fsBacklogChunksSize o + queuedFor o queues =
        engine.storage.fsBacklogChunksSize o + queuedFor o (appendToQueues env c mask size queues engine).2.1 := by
  induction queues generalizing engine with
  | nil => exact ⟨rfl, fun _ => rfl⟩
  | cons queue queues ih =>
    unfold appendToQueues
    by_cases inMask : mask.getBit queue.ins = true
    · simp only [inMask, if_true]
      by_cases answered : engine.answers env .queueAlloc = true
      · simp only [answered, if_true]
        obtain ⟨backlog, balance⟩ := ih (engine.tock.withStorage (addBacklogSize queue.ins size))
        refine ⟨backlog, fun o => ?_⟩
        have rest := balance o
        rw [charged] at rest
        rw [queuedFor_cons, queuedFor_cons, queued_append, add_left_comm, rest]
        by_cases mine : queue.ins = o
        · simp only [mine, if_true]
          abel
        · simp only [mine, if_false]
          abel
      · simp only [answered]
        exact ⟨rfl, fun _ => rfl⟩
    · simp only [inMask]
      obtain ⟨backlog, balance⟩ := ih engine
      refine ⟨backlog, fun o => ?_⟩
      change _ + queuedFor o (queue :: queues) = _ + queuedFor o (queue :: _)
      rw [queuedFor_cons, queuedFor_cons, add_left_comm]
      exact (congrArg _ (balance o)).trans (add_left_comm _ _ _)

private theorem sbAppend_cases (undivided : Undivided env config cio engine) :
    (∃ outcome after, sbAppendChunkToSegregatedBacklogs env config cio engine = (outcome, after) ∧
        outcome ≠ .ok ∧ after.storage.backlog = engine.storage.backlog ∧
        after.storage.fsBacklogChunksSize = engine.storage.fsBacklogChunksSize) ∨
      ∃ after, sbAppendChunkToSegregatedBacklogs env config cio engine = (.ok, after) ∧
        after.storage.backlog = { engine.storage.backlog with
          queues := engine.storage.backlog.queues.map (Segregation.placed cio.ref
            (routesMaskSetByTag config cio.tag) (BitVec.ofNat 64 cio.realSize)) } ∧
        ∀ o, after.storage.fsBacklogChunksSize o + queuedFor o engine.storage.backlog.queues =
          engine.storage.fsBacklogChunksSize o + queuedFor o after.storage.backlog.queues := by
  cases tagRead : env.ok .chunkTag engine.tick with
  | false =>
    have answered : engine.answers env .chunkTag = false := tagRead
    refine .inl ⟨.noTag, engine.tock, ?_, SbAppended.noConfusion, rfl, rfl⟩
    unfold sbAppendChunkToSegregatedBacklogs
    simp [answered]
  | true =>
    by_cases all : Segregation.Allocates env (Segregation.chosen (routesMaskSetByTag config cio.tag)
        engine.storage.backlog.queues).length (engine.tick + 1)
    · obtain ⟨after, appended⟩ := @Segregation.appendToQueues_ok engine.storage.backlog.queues engine.tock env cio.ref
        (routesMaskSetByTag config cio.tag) (BitVec.ofNat 64 cio.realSize) all
      obtain ⟨backlog, balance⟩ := @append_balance env cio.ref (routesMaskSetByTag config cio.tag)
        (BitVec.ofNat 64 cio.realSize) engine.storage.backlog.queues engine.tock
      rw [appended] at backlog balance
      refine .inr ⟨_, Segregation.sbAppend_eq tagRead appended, ?_, balance⟩
      have same : after.storage.backlog = engine.storage.backlog := backlog
      change (⟨after.storage.backlog.cio, _⟩ : Backlog) = _
      rw [same]
    · have first : env.ok .queueAlloc (engine.tick + 1) = false := by
        rcases undivided with unread | first | placed
        · exact absurd unread (by rw [tagRead]; exact Bool.noConfusion)
        · exact first
        · exact absurd placed all
      have needed : Segregation.chosen (routesMaskSetByTag config cio.tag) engine.storage.backlog.queues ≠ [] := by
        intro nothing
        rw [nothing] at all
        exact all fun index inside => absurd inside (Nat.not_lt_zero index)
      have appended := @Segregation.appendToQueues_first engine.storage.backlog.queues engine.tock env cio.ref
        (routesMaskSetByTag config cio.tag) (BitVec.ofNat 64 cio.realSize) needed first
      exact .inl ⟨_, _, Segregation.sbAppend_eq tagRead appended, SbAppended.noConfusion, rfl, rfl⟩

theorem Kept.placed (kept : Kept engine.storage) (member : cio ∈ engine.storage.backlog.cio)
    (free : Free cio.ref engine.storage.backlog.queues) {after : Storage}
    (backlog : after.backlog = { engine.storage.backlog with
      queues := engine.storage.backlog.queues.map (Segregation.placed cio.ref mask (BitVec.ofNat 64 cio.realSize)) })
    (balance : ∀ o, after.fsBacklogChunksSize o + queuedFor o engine.storage.backlog.queues =
      engine.storage.fsBacklogChunksSize o + queuedFor o after.backlog.queues) : Kept after := by
  have entered : ∀ queue, ∀ entry ∈ (Segregation.placed cio.ref mask (BitVec.ofNat 64 cio.realSize) queue).chunks,
      entry ∈ queue.chunks ∨ entry = ⟨cio.ref, BitVec.ofNat 64 cio.realSize⟩ := by
    intro queue entry listed
    unfold Segregation.placed at listed
    split at listed
    · exact (mem_append.mp listed).imp id mem_singleton.mp
    · exact .inl listed
  constructor
  · rw [backlog]
    exact kept.distinct
  · rw [backlog]
    exact kept.files
  · rw [backlog, forall_mem_map]
    intro queue listed
    unfold Segregation.placed
    split
    · rw [map_append]
      refine List.Nodup.append (kept.once queue listed) (nodup_singleton _) ?_
      intro c old new
      obtain ⟨entry, entryListed, same⟩ := mem_map.mp old
      exact free queue listed entry entryListed (same.trans (mem_singleton.mp new))
    · exact kept.once queue listed
  · rw [backlog, forall_mem_map]
    intro queue listed entry entryListed
    cases entered queue entry entryListed with
    | inl old => exact kept.linked queue listed entry old
    | inr new =>
      rw [new]
      exact ⟨cio, member, rfl, rfl⟩
  · intro o
    have sum := balance o
    rw [kept.balanced o, add_comm] at sum
    exact add_left_cancel sum

theorem Free.placed {other : ChunkRef} (free : Free c queues) (apart : other ≠ c) :
    Free c (queues.map (Segregation.placed other mask size)) := by
  intro queue member entry listed
  obtain ⟨old, oldMember, rfl⟩ := mem_map.mp member
  unfold Segregation.placed at listed
  split at listed
  · cases mem_append.mp listed with
    | inl before => exact free old oldMember entry before
    | inr new =>
      rw [mem_singleton.mp new]
      exact apart
  · exact free old oldMember entry listed

theorem Kept.segregateChunk (kept : Kept engine.storage) (free : Free c engine.storage.backlog.queues)
    (segregates : Segregates env config c engine) {goes : Bool} {after : Engine}
    (result : FluentBit.segregateChunk env config c engine = (goes, after)) :
    Kept after.storage ∧ ∀ other, c ≠ other → Free other engine.storage.backlog.queues →
      Free other after.storage.backlog.queues := by
  unfold FluentBit.segregateChunk at result
  unfold Segregates at segregates
  cases loading : cioChunkUpForce env c engine with
  | mk outcome loaded =>
    obtain ⟨keptLoaded, queues, here⟩ := kept.upForce c loading
    rw [loading] at result segregates
    have freeLoaded : Free c loaded.storage.backlog.queues := by
      rw [queues]
      exact free
    rw [← queues]
    cases outcome with
    | error =>
      cases result
      exact ⟨keptLoaded, fun _ _ others => others⟩
    | corrupted =>
      simp only at result
      split at result
      · cases result
        exact ⟨keptLoaded.close freeLoaded, fun _ _ others => others⟩
      · cases result
        exact ⟨keptLoaded, fun _ _ others => others⟩
    | ok =>
      obtain ⟨cio, found⟩ := here rfl
      have member := mem_of_find?_eq_some found
      have ref : cio.ref = c := by simpa using List.find?_some found
      simp only [found] at result
      rcases sbAppend_cases (segregates cio found) with
        ⟨failure, left, appended, failed, backlog, sizes⟩ | ⟨left, appended, backlog, balance⟩
      · have keptLeft : Kept left.storage := keptLoaded.congr backlog sizes
        have freeLeft : Free c left.storage.backlog.queues := by
          rw [backlog]
          exact freeLoaded
        have closed : after = left.withStorage (closeBacklogChunk c) := by
          rw [appended] at result
          cases failure with
          | ok => exact absurd rfl failed
          | noTag | noMemory =>
            cases result
            rfl
        rw [closed]
        refine ⟨keptLeft.close freeLeft, fun other _ others => ?_⟩
        change Free other left.storage.backlog.queues
        rw [backlog]
        exact others
      · rw [appended] at result
        cases result
        have freeRef : Free cio.ref loaded.storage.backlog.queues := by
          rw [ref]
          exact freeLoaded
        have keptLeft : Kept left.storage := keptLoaded.placed member freeRef backlog balance
        refine ⟨keptLeft.setCio fun other _ same => ⟨same, rfl, ?_⟩, fun other apart others => ?_⟩
        · exact keptLeft.files other ‹_›
        · change Free other left.storage.backlog.queues
          rw [backlog]
          apply others.placed
          rw [ref]
          exact apart

theorem Kept.segregateLoop (cs : List ChunkRef) (engine : Engine) (kept : Kept engine.storage) (once : cs.Nodup)
    (free : ∀ c ∈ cs, Free c engine.storage.backlog.queues) (segregates : SegregatesAll env config cs engine) :
    Kept (FluentBit.segregateLoop env config cs engine).storage := by
  induction cs generalizing engine with
  | nil => exact kept
  | cons c cs ih =>
    obtain ⟨now, later⟩ := segregates
    rw [nodup_cons] at once
    unfold FluentBit.segregateLoop
    cases result : FluentBit.segregateChunk env config c engine with
    | mk goes after =>
      obtain ⟨keptAfter, others⟩ := kept.segregateChunk (free c mem_cons_self) now result
      rw [result] at later
      cases goes with
      | false => exact keptAfter
      | true =>
        apply ih after keptAfter once.2 _ later
        intro other listed
        apply others other _ (free other (mem_cons_of_mem _ listed))
        intro same
        exact once.1 (same ▸ listed)

theorem Kept.allocate (kept : Kept storage) (unused : storage.backlog.queues = []) :
    Kept (sbAllocateBacklogs config storage) ∧ ∀ c, Free c (sbAllocateBacklogs config storage).backlog.queues := by
  have blank : ∀ queue ∈ (sbAllocateBacklogs config storage).backlog.queues, queue.chunks = [] := by
    intro queue listed
    change queue ∈ storage.backlog.queues ++ _ at listed
    rw [unused, nil_append] at listed
    obtain ⟨o, -, rfl⟩ := mem_map.mp listed
    rfl
  have nothing : ∀ queues : List SbOutQueue, (∀ queue ∈ queues, queue.chunks = []) → ∀ o, queuedFor o queues = 0 := by
    intro queues each o
    apply sum_eq_zero
    intro size listed
    obtain ⟨queue, member, rfl⟩ := mem_map.mp listed
    unfold queued
    rw [each queue member]
    exact ite_self _
  refine ⟨?_, fun c queue listed entry entryListed => ?_⟩
  · constructor
    · exact kept.distinct
    · exact kept.files
    · intro queue listed
      rw [blank queue listed]
      exact nodup_nil
    · intro queue listed entry entryListed
      rw [blank queue listed] at entryListed
      cases entryListed
    · intro o
      rw [nothing _ blank]
      have before := kept.balanced o
      rw [unused] at before
      exact before
  · rw [blank queue listed] at entryListed
    cases entryListed

theorem Kept.segregate (kept : Kept engine.storage) (unused : engine.storage.backlog.queues = [])
    (segregates : SegregatesAll env config (engine.storage.backlog.cio.map (·.ref))
      (engine.withStorage (sbAllocateBacklogs config))) : Kept (sbSegregateChunks env config engine).storage := by
  unfold sbSegregateChunks
  split
  · exact kept
  · obtain ⟨allocated, free⟩ := @Kept.allocate config engine.storage kept unused
    exact Kept.segregateLoop _ (engine.withStorage (sbAllocateBacklogs config)) allocated kept.distinct
      (fun c _ => free c) segregates

/-! ### Passing chunks to the engine -/

def Whole (env : Env) (cio : CioChunk) (engine : Engine) : Prop :=
  engine.answers env .chunkTag = true ∧ cio.contentSize ≠ 0 ∧
    (readBacklogChunk env cio.eventType cio engine.tock).1.isSome = true

def Loads (env : Env) (entry : SbOutChunk) (engine : Engine) : Prop :=
  match cioChunkUpForce env entry.chunk engine with
  | (.corrupted, _) => False
  | (.error, _) => True
  | (.ok, loaded) => ∀ cio, chunkOf loaded.storage.backlog entry = some cio → Whole env cio loaded

def LoadsAll (env : Env) (config : Config) (i : InputId) : List Nat → Engine → Prop
  | [], _ => True
  | position :: rest, engine =>
    match first engine.storage.backlog position with
    | none => LoadsAll env config i rest engine
    | some entry => Loads env entry engine ∧ LoadsAll env config i rest (visitQueue env config i entry engine).2

def LoadsAlways (env : Env) (config : Config) (i : InputId) (n : Nat) (engine : Engine) : Prop :=
  ∀ k < n, Going config (passes env config i k engine) →
    LoadsAll env config i (List.range (passes env config i k engine).backlog.queues.length)
      (passes env config i k engine).engine

private theorem readBacklogChunk_left {type : EventType} {cio : CioChunk} (file : cio.file = true) :
    (readBacklogChunk env type cio engine).2.ref = cio.ref ∧
      (readBacklogChunk env type cio engine).2.realSize = cio.realSize ∧
      (readBacklogChunk env type cio engine).2.file = true := by
  unfold readBacklogChunk
  split
  · cases inputChunkValidate env type engine with
    | none => exact ⟨rfl, rfl, file⟩
    | some records =>
      simp only
      split
      · exact ⟨rfl, if_pos file, file⟩
      · exact ⟨rfl, rfl, file⟩
  · exact ⟨rfl, rfl, file⟩

private theorem inputChunkMap_whole {i : InputId} {type : EventType} {cio : CioChunk} (file : cio.file = true)
    (valid : (readBacklogChunk env type cio engine).1.isSome = true) :
    ∃ ic left after, inputChunkMap env config i type cio engine = (some ic, left, after) ∧
      left.ref = cio.ref ∧ left.realSize = cio.realSize ∧ left.file = true ∧
      after.storage.backlog = engine.storage.backlog ∧
      after.storage.fsBacklogChunksSize = engine.storage.fsBacklogChunksSize := by
  have same := @readBacklogChunk_left env engine type cio file
  cases read : readBacklogChunk env type cio engine with
  | mk records left =>
    rw [read] at same valid
    cases records with
    | none => cases valid
    | some records =>
      obtain ⟨ref, size, isFile⟩ := same
      have sound := left.sound
      rw [if_pos isFile] at sound
      have real : inputChunkGetRealSize (mappedChunk config engine.nextRef i type records left) = left.realSize :=
        if_pos (Nat.pos_iff_ne_zero.mp sound)
      have charged : ¬ inputChunkGetRealSize (mappedChunk config engine.nextRef i type records left) < 0 := by
        rw [real]
        exact Int.not_lt.mpr (Int.natCast_nonneg _)
      have mapped : inputChunkMap env config i type cio engine = (some engine.nextRef, left, { engine.tock with
          storage := linkMapped config (mappedChunk config engine.nextRef i type records left) engine.storage
          nextRef := engine.nextRef + 1 }) := by
        unfold inputChunkMap
        rw [read]
        simp only [charged, if_false]
        rfl
      refine ⟨_, _, _, mapped, ref, size, isFile, inputChunkMap_backlog mapped, ?_⟩
      unfold linkMapped inputChunkUpdateOutputInstances
      split
      · rfl
      · rfl

theorem Kept.visitQueue (kept : Kept engine.storage) {i : InputId} {entry : SbOutChunk}
    (loads : Loads env entry engine) : Kept (FluentBit.visitQueue env config i entry engine).2.storage := by
  unfold FluentBit.visitQueue
  unfold Loads at loads
  cases loading : cioChunkUpForce env entry.chunk engine with
  | mk outcome loaded =>
    obtain ⟨keptLoaded, -, here⟩ := kept.upForce entry.chunk loading
    rw [loading] at loads
    cases outcome with
    | corrupted => exact absurd loads id
    | error => exact keptLoaded
    | ok =>
      obtain ⟨cio, found⟩ := here rfl
      have member := mem_of_find?_eq_some found
      have ref : cio.ref = entry.chunk := by simpa using List.find?_some found
      obtain ⟨tag, content, valid⟩ := loads cio found
      obtain ⟨ic, left, after, mapped, leftRef, leftSize, leftFile, backlog, sizes⟩ :=
        @inputChunkMap_whole env config loaded.tock i cio.eventType cio (keptLoaded.files cio member) valid
      simp only [found, tag, content, mapped, Bool.not_true, Bool.false_eq_true, if_false]
      have keptAfter : Kept after.storage := keptLoaded.congr backlog sizes
      have keptLeft : Kept (setBacklogCio entry.chunk (fun _ => left) after.storage) := by
        apply keptAfter.setCio
        intro other otherMember otherRef
        have otherListed : other ∈ loaded.storage.backlog.cio := by
          have same : after.storage.backlog = loaded.storage.backlog := backlog
          rwa [same] at otherMember
        have equal : other = cio :=
          inj_on_of_nodup_map keptLoaded.distinct otherListed member (otherRef.trans ref.symm)
        exact ⟨leftRef.trans ref, by rw [leftSize, equal], leftFile⟩
      have leftMember : left ∈ (setBacklogCio entry.chunk (fun _ => left) after.storage).backlog.cio := by
        have same : after.storage.backlog = loaded.storage.backlog := backlog
        apply mem_replace.mpr
        rw [same]
        exact ⟨cio, member, if_pos ref⟩
      have retired := @Kept.retire env (after.withStorage (setBacklogCio entry.chunk fun _ => left)) keptLeft left
        leftMember
      rw [leftRef.trans ref] at retired
      exact retired.congr rfl rfl

theorem Kept.visitQueues (i : InputId) (positions : List Nat) (total empty : Nat) (engine : Engine)
    (kept : Kept engine.storage) (loads : LoadsAll env config i positions engine) :
    Kept (FluentBit.visitQueues env config i positions total empty engine).2.2.storage := by
  induction positions generalizing total empty engine with
  | nil => exact kept
  | cons position positions ih =>
    unfold LoadsAll first at loads
    unfold FluentBit.visitQueues
    cases here : (engine.storage.backlog.queues[position]?).bind (·.chunks.head?) with
    | none =>
      rw [here] at loads
      exact ih total (empty + 1) engine kept loads
    | some entry =>
      rw [here] at loads
      obtain ⟨now, later⟩ := loads
      have visited := @Kept.visitQueue env config engine kept i entry now
      simp only
      generalize FluentBit.visitQueue env config i entry engine = result at visited later
      obtain ⟨outcome, after⟩ := result
      cases outcome with
      | mapped size => exact ih (total + size) empty after visited later
      | empty | removed | stuck => exact ih total empty after visited later

theorem Kept.queueChunks (kept : Kept engine.storage) {i : InputId} {n : Nat}
    (loads : LoadsAlways env config i n engine) : Kept (cbQueueChunks env config i n engine).storage := by
  rw [cbQueueChunks_eq]
  induction n with
  | zero => exact kept
  | succ n ih =>
    have before := ih fun k bound => loads k (Nat.lt_succ_of_lt bound)
    unfold passes at before ⊢
    by_cases goes : Going config (passes env config i n engine)
    · have next : Loop.passes (Going config) (pass env config i) (n + 1) (start i engine) =
          pass env config i (passes env config i n engine) := Loop.step_going goes
      rw [next]
      exact Kept.visitQueues i _ _ 0 _ before (loads n (Nat.lt_succ_self n) goes)
    · have ended : Loop.passes (Going config) (pass env config i) (n + 1) (start i engine) =
          passes env config i n engine := Loop.step_ended goes
      rw [ended]
      exact before

structure Unfilled (storage : Storage) : Prop where
  queues : storage.backlog.queues = []
  sizes : ∀ o, storage.fsBacklogChunksSize o = 0
  distinct : (storage.backlog.cio.map (·.ref)).Nodup
  files : ∀ cio ∈ storage.backlog.cio, cio.file = true

def Admissible (env : Env) (config : Config) (engine : Engine) : Op → Prop
  | .segregate => config.storageInputPlugin = none ∨ engine.storage.backlog.queues = [] ∧
      SegregatesAll env config (engine.storage.backlog.cio.map (·.ref))
        (engine.withStorage (sbAllocateBacklogs config))
  | .release _ _ => True
  | .queueChunks i n => LoadsAlways env config i n engine

theorem Unfilled.kept (unfilled : Unfilled storage) : Kept storage := by
  constructor
  · exact unfilled.distinct
  · exact unfilled.files
  · rw [unfilled.queues]
    intro queue listed
    cases listed
  · rw [unfilled.queues]
    intro queue listed
    cases listed
  · intro o
    rw [unfilled.queues, unfilled.sizes]
    rfl

/-- Each step that is admitted keeps the size of the backlog right. -/
theorem Kept.step (kept : Kept engine.storage) {op : Op} (admissible : Admissible env config engine op) :
    Kept (BacklogAccounts.step env config op engine).storage := by
  cases op with
  | segregate =>
    cases admissible with
    | inl missing =>
      unfold BacklogAccounts.step sbSegregateChunks
      rw [missing]
      exact kept
    | inr once => exact kept.segregate once.1 once.2
  | release o required => exact kept.release o required
  | queueChunks i n => exact kept.queueChunks admissible

/-- In every run of such calls the outputs are charged with what is in their queues, and no entry
refers to a chunk that is gone. -/
theorem backlog_accurate (env : Env) (config : Config) (engine : Engine) (unfilled : Unfilled engine.storage)
    (ops : List Op) (admitted : Runs.Admits (BacklogAccounts.step env config) (Admissible env config) engine ops) :
    Accurate (Runs.after (BacklogAccounts.step env config) engine ops) := by
  have path := Runs.path_after ops admitted
  have kept := path.invariant (fun engine => Kept engine.storage) unfilled.kept
    fun _ _ kept admissible => kept.step admissible
  exact kept.accurate

end

def coldDisk : OnDisk := ⟨[coldChunk], nodup_singleton _⟩

private theorem coldDisk_unfilled : Unfilled (started coldDisk).storage :=
  ⟨rfl, fun _ => rfl, coldDisk.distinct, fun _ member => by
    rw [mem_singleton.mp member]
    rfl⟩

def coldRun : List Op := [.segregate, .queueChunks 9 1, .release 0 10]

theorem backlog_accurate_coldRun :
    Accurate (Runs.after (step Sample.willing oneOutput) (started coldDisk) coldRun) := by
  apply backlog_accurate Sample.willing oneOutput (started coldDisk) coldDisk_unfilled coldRun
  refine ⟨.inr ⟨rfl, ⟨fun cio _ => ?_, trivial⟩⟩, fun k bound _ => ?_, trivial, trivial⟩
  · exact .inr (.inr fun _ _ => rfl)
  · cases Nat.lt_one_iff.mp bound
    refine ⟨fun cio found => ?_, trivial⟩
    cases found
    exact ⟨rfl, by decide, rfl⟩

/-- The chunk is found corrupted when it is loaded the second time, and its size is read after it was closed. -/
theorem corrupted_chunk_miscounted : ¬ ∀ ops, Accurate (Runs.after
      (step (Sample.env fun site tick => decide (site = .chunkUp ∧ tick = 3)) oneOutput) (started coldDisk) ops) := by
  intro accurate
  have sizes := (accurate [.segregate, .queueChunks 9 1]).1 0
  exact absurd sizes (by decide)

end FluentBit.BacklogAccounts
