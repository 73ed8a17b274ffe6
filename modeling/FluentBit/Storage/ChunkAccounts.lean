import FluentBit.Engine.StepSimulation

/-! What the outputs are charged with for the chunks of the engine: the sizes of the chunks that
are routed to them and were counted. -/

set_option autoImplicit false

namespace FluentBit.ChunkAccounts

open List Bool Tally BitVec

/-! ### Books -/

structure Account where
  ref : ChunkRef
  ins : InputId
  routesMask : RoutesMask
  fsCounted : Bool
  realSize : Nat
  dataSize : Nat

def account (ic : InputChunk) : Account :=
  { ref := ic.ref, ins := ic.ins, routesMask := ic.routesMask, fsCounted := ic.fsCounted,
    realSize := ic.chunk.realSize, dataSize := ic.chunk.dataSize }

def Account.charge (o : OutId) (a : Account) : Nat :=
  if a.routesMask.getBit o && a.fsCounted then a.realSize else 0

structure Books where
  accounts : List Account
  sizes : OutId → SizeT
  table : InputId → EventType → Tag → Option ChunkRef
  next : ChunkRef

def books (engine : Engine) : Books :=
  { accounts := engine.storage.chunks.map account, sizes := engine.storage.fsChunksSize,
    table := engine.storage.htChunks, next := engine.nextRef }

def total (o : OutId) (accounts : List Account) : Nat := (accounts.map (Account.charge o)).sum

def Fit (config : Config) (i : InputId) (a : Account) : Prop :=
  a.ins = i ∧ (a.fsCounted = true → a.dataSize ≠ 0 ∧ config.isRoutable i = true)

def Filled (config : Config) (a : Account) : Prop :=
  config.isRoutable a.ins = true → a.dataSize ≠ 0 → a.fsCounted = false → ∀ o, config.isLimited o = true →
    a.routesMask.getBit o = true → BitVec.ofNat 64 a.realSize = 0

structure Kept (config : Config) (b : Books) : Prop where
  distinct : (b.accounts.map (·.ref)).Nodup
  fresh : ∀ a ∈ b.accounts, a.ref < b.next
  sized : ∀ a ∈ b.accounts, a.fsCounted = true → a.realSize ≠ 0
  filled : ∀ a ∈ b.accounts, Filled config a
  found : ∀ i type tag c, b.table i type tag = some c → c < b.next ∧ ∀ a ∈ b.accounts, a.ref = c → Fit config i a
  balanced : ∀ o, config.isLimited o = true → b.sizes o = BitVec.ofNat 64 (total o b.accounts)

section

variable {config : Config} {b other : Books}

structure Elsewhere (b other : Books) : Prop where
  accounts : other.accounts = b.accounts
  sizes : other.sizes = b.sizes
  table : other.table = b.table
  next : b.next ≤ other.next

theorem Kept.elsewhere (kept : Kept config b) (elsewhere : Elsewhere b other) : Kept config other := by
  constructor
  · rw [elsewhere.accounts]
    exact kept.distinct
  · rw [elsewhere.accounts]
    exact fun a member => Nat.lt_of_lt_of_le (kept.fresh a member) elsewhere.next
  · rw [elsewhere.accounts]
    exact kept.sized
  · rw [elsewhere.accounts]
    exact kept.filled
  · rw [elsewhere.accounts, elsewhere.table]
    intro i type tag c here
    obtain ⟨bound, fit⟩ := kept.found i type tag c here
    exact ⟨Nat.lt_of_lt_of_le bound elsewhere.next, fit⟩
  · rw [elsewhere.accounts, elsewhere.sizes]
    exact kept.balanced

variable {a : Account}

theorem Kept.close (kept : Kept config b) (member : a ∈ b.accounts)
    (accounts : other.accounts = discard Account.ref a.ref b.accounts)
    (sizes : ∀ o, config.isLimited o = true → other.sizes o = b.sizes o - BitVec.ofNat 64 (a.charge o))
    (table : ∀ i type tag c, other.table i type tag = some c → b.table i type tag = some c)
    (next : other.next = b.next) : Kept config other := by
  have before : ∀ old ∈ other.accounts, old ∈ b.accounts := by
    intro old listed
    rw [accounts] at listed
    exact (mem_discard.mp listed).1
  constructor
  · rw [accounts]
    exact kept.distinct.sublist (filter_sublist.map _)
  · rw [next]
    exact fun old listed => kept.fresh old (before old listed)
  · exact fun old listed => kept.sized old (before old listed)
  · exact fun old listed => kept.filled old (before old listed)
  · rw [next]
    intro i type tag c here
    obtain ⟨bound, fit⟩ := kept.found i type tag c (table i type tag c here)
    exact ⟨bound, fun old listed => fit old (before old listed)⟩
  · intro o limited
    have sum : total o other.accounts + a.charge o = total o b.accounts := by
      rw [accounts]
      exact sum_discard kept.distinct member rfl
    rw [sizes o limited, kept.balanced o limited, ← sum, ofNat_add, add_sub_cancel_right]

/-- The books stay right when a charge and the sizes change alike. -/
theorem Kept.replace (kept : Kept config b) (member : a ∈ b.accounts) (change : Account → Account)
    (ref : ∀ a : Account, (change a).ref = a.ref)
    (accounts : other.accounts = Tally.replace Account.ref a.ref change b.accounts)
    (sizes : ∀ o, config.isLimited o = true →
      other.sizes o + BitVec.ofNat 64 (a.charge o) = b.sizes o + BitVec.ofNat 64 ((change a).charge o))
    (sized : (change a).fsCounted = true → (change a).realSize ≠ 0) (filled : Filled config (change a))
    (fit : ∀ i type tag, b.table i type tag = some a.ref → Fit config i a → Fit config i (change a))
    (table : other.table = b.table) (next : other.next = b.next) : Kept config other := by
  have before : ∀ new ∈ other.accounts, (new ∈ b.accounts ∧ new.ref ≠ a.ref) ∨ new = change a := by
    intro new listed
    rw [accounts] at listed
    obtain ⟨old, oldListed, rfl⟩ := mem_replace.mp listed
    by_cases same : old.ref = a.ref
    · have equal : old = a := inj_on_of_nodup_map kept.distinct oldListed member same
      rw [if_pos same, equal]
      exact .inr rfl
    · rw [if_neg same]
      exact .inl ⟨oldListed, same⟩
  have refs : other.accounts.map (·.ref) = b.accounts.map (·.ref) := by
    rw [accounts]
    exact map_replace_of_fixed ref
  constructor
  · rw [refs]
    exact kept.distinct
  · rw [next]
    intro new listed
    cases before new listed with
    | inl old => exact kept.fresh new old.1
    | inr same =>
      rw [same, ref]
      exact kept.fresh a member
  · intro new listed
    cases before new listed with
    | inl old => exact kept.sized new old.1
    | inr same =>
      rw [same]
      exact sized
  · intro new listed
    cases before new listed with
    | inl old => exact kept.filled new old.1
    | inr same =>
      rw [same]
      exact filled
  · rw [next, table]
    intro i type tag c here
    obtain ⟨bound, each⟩ := kept.found i type tag c here
    refine ⟨bound, fun new listed named => ?_⟩
    cases before new listed with
    | inl old => exact each new old.1 named
    | inr same =>
      rw [same, ref] at named
      rw [same]
      rw [← named] at here
      exact fit i type tag here (each a member named)
  · intro o limited
    have sum : total o other.accounts + a.charge o = total o b.accounts + (change a).charge o := by
      rw [accounts]
      exact sum_replace kept.distinct member rfl
    have charged := sizes o limited
    rw [kept.balanced o limited, ← ofNat_add, ← sum, ofNat_add] at charged
    exact add_right_cancel charged

theorem Kept.enter (kept : Kept config b) {a : Account} (accounts : other.accounts = b.accounts ++ [a])
    (first : b.next ≤ a.ref) (after : a.ref < other.next)
    (sizes : ∀ o, config.isLimited o = true → other.sizes o = b.sizes o + BitVec.ofNat 64 (a.charge o))
    (sized : a.fsCounted = true → a.realSize ≠ 0) (filled : Filled config a)
    (table : ∀ i type tag c, other.table i type tag = some c →
      b.table i type tag = some c ∨ c = a.ref ∧ Fit config i a) : Kept config other := by
  have apart : ∀ old ∈ b.accounts, old.ref ≠ a.ref := by
    intro old listed same
    have bound := kept.fresh old listed
    rw [same] at bound
    exact absurd bound (Nat.not_lt.mpr first)
  have before : ∀ new ∈ other.accounts, new ∈ b.accounts ∨ new = a := by
    intro new listed
    rw [accounts] at listed
    exact (mem_append.mp listed).imp id mem_singleton.mp
  constructor
  · rw [accounts, map_append]
    refine List.Nodup.append kept.distinct (nodup_singleton _) ?_
    intro c old new
    obtain ⟨listed, member, same⟩ := mem_map.mp old
    exact apart listed member (same.trans (mem_singleton.mp new))
  · intro new listed
    cases before new listed with
    | inl old => exact Nat.lt_trans (Nat.lt_of_lt_of_le (kept.fresh new old) first) after
    | inr same =>
      rw [same]
      exact after
  · intro new listed
    cases before new listed with
    | inl old => exact kept.sized new old
    | inr same =>
      rw [same]
      exact sized
  · intro new listed
    cases before new listed with
    | inl old => exact kept.filled new old
    | inr same =>
      rw [same]
      exact filled
  · intro i type tag c here
    cases table i type tag c here with
    | inl old =>
      obtain ⟨bound, each⟩ := kept.found i type tag c old
      refine ⟨Nat.lt_trans (Nat.lt_of_lt_of_le bound first) after, fun new listed named => ?_⟩
      cases before new listed with
      | inl known => exact each new known named
      | inr same =>
        rw [same] at named
        rw [← named] at bound
        exact absurd bound (Nat.not_lt.mpr first)
    | inr new =>
      obtain ⟨rfl, fit⟩ := new
      refine ⟨after, fun listed member named => ?_⟩
      cases before listed member with
      | inl known => exact absurd named (apart listed known)
      | inr same =>
        rw [same]
        exact fit
  · intro o limited
    have sum : total o other.accounts = total o b.accounts + a.charge o := by
      unfold total
      rw [accounts, map_append, sum_append, map_singleton, sum_singleton]
    rw [sizes o limited, kept.balanced o limited, sum, ofNat_add]

end

/-! ### Destroying a chunk -/

theorem inputChunkGetRealSize_eq (ic : InputChunk) :
    inputChunkGetRealSize ic = if ic.chunk.realSize = 0 then -1 else (ic.chunk.realSize : Int) := by
  unfold inputChunkGetRealSize
  by_cases empty : ic.chunk.realSize = 0
  · rw [if_neg (not_not.mpr empty), if_pos empty]
    have sound := ic.chunk.sound
    cases file : ic.chunk.file with
    | true =>
      rw [file, if_pos rfl, empty] at sound
      exact absurd sound (Nat.lt_irrefl 0)
    | false =>
      rw [file, if_neg Bool.false_ne_true, empty] at sound
      have content : inputChunkGetSize ic = 0 := by
        unfold inputChunkGetSize CioChunk.contentSize
        rw [if_pos sound.1]
        exact sound.2.symm
      rw [if_pos content]
  · rw [if_pos empty, if_neg empty]

private theorem inputChunkGetRealSize_of_ne {ic : InputChunk} (size : ic.chunk.realSize ≠ 0) :
    inputChunkGetRealSize ic = (ic.chunk.realSize : Int) := by
  rw [inputChunkGetRealSize_eq, if_neg size]

theorem sizeOfSSize_natCast (size : Nat) : sizeOfSSize size = BitVec.ofNat 64 size := ofInt_natCast ..

variable {after : Engine} {scope : OutId → Prop}

section

variable {env : Env} {config : Config} {engine : Engine} {c : ChunkRef} {ic : InputChunk}

theorem member_account (listed : engine.storage.chunk? c = some ic) : account ic ∈ (books engine).accounts :=
  mem_map_of_mem (Storage.chunk?_some listed).1

variable {o : OutId} {i : InputId} {tag : Tag} {type : EventType} {new : ChunkRef}

private theorem sizes_uncountChunk (sized : ic.fsCounted = true → ic.chunk.realSize ≠ 0) (storage : Storage)
    (limited : config.isLimited o = true) : (uncountChunk config ic storage).fsChunksSize o =
      storage.fsChunksSize o - BitVec.ofNat 64 ((account ic).charge o) := by
  unfold uncountChunk
  simp only [limited, Bool.true_and]
  by_cases counted : (ic.routesTo o && ic.fsCounted) = true
  · have size := sized (and_eq_true_iff.mp counted).2
    have nonnegative : inputChunkGetRealSize ic ≠ -1 := by
      rw [inputChunkGetRealSize_of_ne size]
      exact fun wrong => absurd (wrong ▸ Int.natCast_nonneg ic.chunk.realSize) (by decide)
    have charged : (account ic).charge o = ic.chunk.realSize := if_pos counted
    rw [charged, ← sizeOfSSize_natCast, ← inputChunkGetRealSize_of_ne size, decide_eq_true nonnegative, Bool.true_and, if_pos counted]
  · have charged : (account ic).charge o = 0 := if_neg counted
    rw [charged, Bool.and_assoc, not_eq_true _ |>.mp counted, Bool.and_false, if_neg Bool.false_ne_true]
    exact (sub_zero _).symm

private theorem htDelPtr_some {i' : InputId} {type' : EventType} {tag' : Tag} {storage : Storage} {c' : ChunkRef}
    (here : (htDelPtr i type tag c storage).htChunks i' type' tag' = some c') :
    storage.htChunks i' type' tag' = some c' := by
  unfold htDelPtr at here
  split at here
  · simp only at here
    split at here
    · cases here
    · exact here
  · exact here

private theorem sizes_htDelPtr (storage : Storage) :
    (htDelPtr i type tag c storage).fsChunksSize = storage.fsChunksSize := by
  unfold htDelPtr
  split
  · rfl
  · rfl

theorem Kept.unlink (kept : Kept config (books engine)) (listed : engine.storage.chunk? c = some ic) (del : Bool)
    (unlinked : after.storage = unlinkChunk c (if del then htDelPtr i type tag c (uncountChunk config ic engine.storage) else uncountChunk config ic engine.storage))
    (next : after.nextRef = engine.nextRef) : Kept config (books after) := by
  have member := member_account listed
  have ref : ic.ref = c := (Storage.chunk?_some listed).2
  have chunks : after.storage.chunks = discard InputChunk.ref c engine.storage.chunks := by
    rw [unlinked]
    cases del with
    | false => rfl
    | true => exact congrArg _ (chunks_htDelPtr _ c i type tag)
  apply kept.close member
  · unfold books
    rw [chunks, ← ref]
    exact map_discard fun _ => rfl
  · intro o limited
    have given := sizes_uncountChunk (kept.sized _ member) engine.storage limited
    change after.storage.fsChunksSize o = engine.storage.fsChunksSize o - _
    rw [← given, unlinked]
    cases del with
    | false => rfl
    | true => exact congrFun (sizes_htDelPtr _) o
  · intro i' type' tag' c' here
    change after.storage.htChunks i' type' tag' = some c' at here
    rw [unlinked] at here
    cases del with
    | false => exact here
    | true =>
      have before : (uncountChunk config ic engine.storage).htChunks i' type' tag' = some c' := htDelPtr_some here
      exact before
  · exact next

theorem Kept.destroy (kept : Kept config (books engine)) (c : ChunkRef) (del : Bool) :
    Kept config (books (inputChunkDestroy env config c del engine)) := by
  unfold inputChunkDestroy
  cases listed : engine.storage.chunk? c with
  | none => exact kept
  | some ic => exact kept.unlink listed (del && engine.answers env .chunkTag) rfl rfl

theorem Kept.destroyCorrupted (kept : Kept config (books engine)) (c : ChunkRef) (tag : Tag) (del : Bool) :
    Kept config (books (engine.withStorage (inputChunkDestroyCorrupted config c tag del))) := by
  unfold Engine.withStorage inputChunkDestroyCorrupted
  cases listed : engine.storage.chunk? c with
  | none => exact kept
  | some ic => exact kept.unlink listed del rfl rfl

theorem books_inputChunkSetLimits : books (engine.withStorage (inputChunkSetLimits config i)) = books engine := by
  unfold Engine.withStorage inputChunkSetLimits
  simp only
  split
  · split
    · rfl
    · rfl
  · split
    · rfl
    · rfl

private theorem books_foldl_taskRetryDestroy (refs : List RetryRef) :
    books (refs.foldl (fun engine r => taskRetryDestroy r engine) engine) = books engine :=
  foldl_taskRetryDestroy books (fun _ _ _ _ => rfl) refs

theorem Kept.taskDestroy (kept : Kept config (books engine)) (t : TaskRef) (del : Bool) :
    Kept config (books (FluentBit.taskDestroy env config t del engine)) := by
  unfold FluentBit.taskDestroy
  cases engine.task? t with
  | none => exact kept
  | some task =>
    rw [books_inputChunkSetLimits, books_foldl_taskRetryDestroy]
    apply Kept.destroy
    exact kept

/-! ### Releasing space -/

structure Remains (ic ic' : InputChunk) : Prop where
  ref : ic'.ref = ic.ref
  ins : ic'.ins = ic.ins
  chunk : ic'.chunk = ic.chunk
  fsCounted : ic'.fsCounted = ic.fsCounted
  routes : ∀ o, ic'.routesTo o = true → ic.routesTo o = true

def Outlives (before after : Engine) : Prop :=
  ∀ ic' ∈ after.storage.chunks, ∃ ic ∈ before.storage.chunks, Remains ic ic'

theorem Remains.refl (ic : InputChunk) : Remains ic ic := ⟨rfl, rfl, rfl, rfl, fun _ routed => routed⟩

theorem Remains.trans {first second third : InputChunk} (left : Remains first second) (right : Remains second third) :
    Remains first third where
  ref := right.ref.trans left.ref
  ins := right.ins.trans left.ins
  chunk := right.chunk.trans left.chunk
  fsCounted := right.fsCounted.trans left.fsCounted
  routes := fun o routed => left.routes o (right.routes o routed)

theorem Outlives.of_sublist {before after : Engine} (fewer : after.storage.chunks.Sublist before.storage.chunks) :
    Outlives before after :=
  fun ic listed => ⟨ic, fewer.subset listed, .refl ic⟩

theorem Outlives.refl (engine : Engine) : Outlives engine engine := .of_sublist (List.Sublist.refl _)

theorem Outlives.trans {first second third : Engine} (left : Outlives first second) (right : Outlives second third) :
    Outlives first third := by
  intro ic listed
  obtain ⟨middle, middleListed, later⟩ := right ic listed
  obtain ⟨old, oldListed, earlier⟩ := left middle middleListed
  exact ⟨old, oldListed, earlier.trans later⟩

theorem destroy_sublist (del : Bool) :
    (inputChunkDestroy env config c del engine).storage.chunks.Sublist engine.storage.chunks := by
  unfold inputChunkDestroy
  cases engine.storage.chunk? c with
  | none => exact .refl _
  | some ic =>
    have shorter : ∀ storage : Storage, (unlinkChunk c storage).chunks.Sublist storage.chunks :=
      fun _ => filter_sublist
    refine (shorter _).trans ?_
    split
    · rw [chunks_htDelPtr]
      exact .refl _
    · exact .refl _

theorem taskDestroy_sublist (t : TaskRef) (del : Bool) (engine : Engine) :
    (FluentBit.taskDestroy env config t del engine).storage.chunks.Sublist engine.storage.chunks := by
  unfold FluentBit.taskDestroy
  cases engine.task? t with
  | none => exact .refl _
  | some task =>
    simp only [Engine.withStorage, chunks_inputChunkSetLimits, storage_foldl_taskRetryDestroy]
    exact destroy_sublist del

def Covered (config : Config) (new : ChunkRef) (scope : OutId → Prop) (engine : Engine) : Prop :=
  ∀ ic ∈ engine.storage.chunks, ic.ref ≠ new → ∀ o, scope o → config.isLimited o = true →
    ic.routesTo o = true → ic.fsCounted = true

theorem Covered.outlives (covered : Covered config new scope engine) (outlives : Outlives engine after) :
    Covered config new scope after := by
  intro ic listed different o inScope limited routed
  obtain ⟨old, oldListed, remains⟩ := outlives ic listed
  rw [remains.fsCounted]
  rw [remains.ref] at different
  exact covered old oldListed different o inScope limited (remains.routes o routed)

theorem getBit_clearBit_out (mask : RoutesMask) (o o' : OutId) :
    (mask.clearBit o).getBit o' = (mask.getBit o' && decide (o ≠ o')) := by
  rw [RoutesMask.getBit_clearBit]
  congr 1
  rw [Bool.eq_iff_iff, decide_eq_true_eq, decide_eq_true_eq]
  exact not_congr Int.ofNat_inj

def Account.dropRoute (o : OutId) (a : Account) : Account := { a with routesMask := a.routesMask.clearBit o }

private theorem charge_dropRoute_self (a : Account) : (a.dropRoute o).charge o = 0 := by
  unfold Account.charge Account.dropRoute
  simp

private theorem charge_dropRoute_other {o' : OutId} (apart : o ≠ o') (a : Account) :
    (a.dropRoute o).charge o' = a.charge o' := by
  unfold Account.charge Account.dropRoute
  simp [apart]

theorem Kept.dropRoute (kept : Kept config (books engine)) (listed : engine.storage.chunk? c = some ic) {o : OutId}
    (routed : ic.routesTo o = true) (counted : config.isLimited o = true → ic.fsCounted = true) :
    Kept config (books (engine.withStorage (FluentBit.dropRoute c o (inputChunkGetRealSize ic)))) := by
  have member := member_account listed
  have ref : ic.ref = c := (Storage.chunk?_some listed).2
  have accounts : (books (engine.withStorage (FluentBit.dropRoute c o (inputChunkGetRealSize ic)))).accounts =
      Tally.replace Account.ref (account ic).ref (Account.dropRoute o) (books engine).accounts := by
    rw [← ref]
    exact map_replace (fun _ => rfl) fun _ _ _ => rfl
  apply kept.replace member (Account.dropRoute o) (fun _ => rfl) accounts
  · intro o' limited
    change (if o' = o then engine.storage.fsChunksSize o' - sizeOfSSize (inputChunkGetRealSize ic)
      else engine.storage.fsChunksSize o') + _ = engine.storage.fsChunksSize o' + _
    by_cases same : o' = o
    · subst same
      have flag := counted limited
      have size : ic.chunk.realSize ≠ 0 := kept.sized _ member flag
      have before : (account ic).charge o' = ic.chunk.realSize := if_pos (and_eq_true_iff.mpr ⟨routed, flag⟩)
      rw [if_pos rfl, before, charge_dropRoute_self, inputChunkGetRealSize_of_ne size, sizeOfSSize_natCast]
      exact (sub_add_cancel _ _).trans (add_zero _).symm
    · rw [if_neg same, charge_dropRoute_other (Ne.symm same)]
  · exact kept.sized (account ic) member
  · intro routable data uncounted o' limited bit
    apply kept.filled _ member routable data uncounted o' limited
    have both : ((account ic).routesMask.clearBit o).getBit o' = true := bit
    rw [getBit_clearBit_out] at both
    exact (and_eq_true_iff.mp both).1
  · exact fun _ _ _ _ fit => fit
  · rfl
  · rfl

private theorem dropRoute_outlives (size : Int) :
    Outlives engine (engine.withStorage (FluentBit.dropRoute c o size)) := by
  intro ic' listed
  obtain ⟨ic, member, rfl⟩ := mem_replace.mp listed
  refine ⟨ic, member, ?_⟩
  split
  · refine ⟨rfl, rfl, rfl, rfl, fun o' routed => ?_⟩
    have both : (ic.routesMask.clearBit o).getBit o' = true := routed
    rw [getBit_clearBit_out] at both
    exact (and_eq_true_iff.mp both).1
  · exact .refl ic

private theorem books_unconcerned (unconcerned : Unconcerned engine after) : books after = books engine := by
  unfold books
  rw [unconcerned.chunks, unconcerned.fsChunksSize, unconcerned.htChunks, unconcerned.tasks]

theorem Kept.reclaim (step : Reclaim env config new scope engine after) (covered : Covered config new scope engine)
    (kept : Kept config (books engine)) : Kept config (books after) ∧ Outlives engine after := by
  cases step with
  | elsewhere unconcerned =>
    rw [books_unconcerned unconcerned]
    refine ⟨kept, .of_sublist ?_⟩
    rw [unconcerned.chunks]
  | chunkGone listed unused => exact ⟨kept.destroy _ true, .of_sublist (destroy_sublist true)⟩
  | taskGone here unused => exact ⟨kept.taskDestroy _ true, .of_sublist (taskDestroy_sublist _ true engine)⟩
  | taskRoute | counted => exact ⟨kept, .refl engine⟩
  | @route c o ic _ inScope listed different routed =>
    obtain ⟨member, ref⟩ := Storage.chunk?_some listed
    rw [← ref] at different
    exact ⟨kept.dropRoute listed routed fun limited => covered ic member different o inScope limited routed,
      dropRoute_outlives _⟩

theorem Kept.reclaims (steps : Reclaims env config new scope engine after) (covered : Covered config new scope engine)
    (kept : Kept config (books engine)) : Kept config (books after) ∧ Outlives engine after := by
  induction steps with
  | refl => exact ⟨kept, .refl engine⟩
  | tail _ step ih =>
    obtain ⟨keptThere, outlives⟩ := ih
    obtain ⟨keptAfter, later⟩ := Kept.reclaim step (covered.outlives outlives) keptThere
    exact ⟨keptAfter, outlives.trans later⟩

private theorem books_countDroppedRecords (old : InputChunk) :
    books (countDroppedRecords env o old engine) = books engine := by
  unfold countDroppedRecords
  cases old.task with
  | none => rfl
  | some t =>
    simp only
    split
    · rfl
    · rfl

theorem Kept.destroyReleased (kept : Kept config (books engine)) (old : InputChunk) :
    Kept config (books (FluentBit.destroyReleased env config old engine).2) := by
  unfold FluentBit.destroyReleased
  cases old.task with
  | none => exact kept.destroy _ true
  | some t =>
    simp only
    cases engine.task? t with
    | none => exact kept
    | some task =>
      simp only
      split
      · exact kept.taskDestroy t true
      · exact kept

theorem Kept.releaseChunk (kept : Kept config (books engine)) (new : ChunkRef) (o : OutId) (c : ChunkRef) :
    Kept config (books (FluentBit.releaseChunk env config new o .wholeChunk c engine).2) := by
  unfold FluentBit.releaseChunk
  cases engine.storage.chunk? c with
  | none => exact kept
  | some old =>
    simp only
    split
    · exact kept
    · rcases dropped : inputChunkDropTaskRoute old.task o engine with ⟨_ | count, marked⟩
      · have same := books_unconcerned (inputChunkDropTaskRoute_none dropped)
        rw [← same] at kept
        exact kept
      · have same : books marked = books engine := by
          have shape := inputChunkDropTaskRoute_some dropped
          cases shape with
          | inl unchanged => rw [unchanged]
          | inr status =>
            obtain ⟨t, rfl⟩ := status
            rfl
        rw [← same] at kept
        apply Kept.destroyReleased
        split
        · rw [books_countDroppedRecords]
          exact kept
        · exact kept

theorem Kept.releaseLoop (new : ChunkRef) (o : OutId) (required : Int) (cs : List ChunkRef) (released : Int)
    (engine : Engine) (kept : Kept config (books engine)) :
    Kept config (books (FluentBit.releaseLoop env config new o .wholeChunk required cs released engine).2) := by
  induction cs generalizing released engine with
  | nil => exact kept
  | cons c cs ih =>
    have first := @Kept.releaseChunk env config engine kept new o c
    unfold FluentBit.releaseLoop
    rcases outcome : FluentBit.releaseChunk env config new o .wholeChunk c engine with ⟨_ | bytes, after⟩
    · rw [outcome] at first
      exact ih released after first
    · rw [outcome] at first
      simp only
      split
      · exact first
      · exact ih _ after first

theorem Kept.release (kept : Kept config (books engine)) (new : ChunkRef) (i : InputId) (o : OutId)
    (scope : ReleaseScope) (required : Int) (covered : scope = .onlyRoute → Covered config new (· = o) engine) :
    Kept config (books (inputChunkReleaseSpace env config new i o scope required engine).2) := by
  cases scope with
  | wholeChunk => exact Kept.releaseLoop new o required _ 0 engine kept
  | onlyRoute =>
    have steps := @inputChunkReleaseSpace_reclaims env config new (· = o) o rfl i .onlyRoute required engine
    exact (Kept.reclaims steps (covered rfl) kept).1

/-! ### New chunks -/

theorem Kept.create (kept : Kept config (books engine)) (i : InputId) (type : EventType) (tag : Tag) :
    Kept config (books (inputChunkCreate env config i type tag engine).2) := by
  cases created : inputChunkCreate env config i type tag engine with
  | mk ref after =>
    cases ref with
    | none =>
      rw [inputChunkCreate_none created]
      exact kept
    | some c =>
      obtain ⟨cio, rfl, empty, -, rfl⟩ := inputChunkCreate_some created
      apply @Kept.enter config (books engine) _ kept
        (account (createdChunk config (engine.nextRef + 1) i type tag cio))
      · change (linkChunk tag _ engine.storage).chunks.map account = _
        rw [chunks_linkChunk, map_append]
        rfl
      · exact Nat.le_succ _
      · exact Nat.lt_succ_self _
      · intro o limited
        have uncharged : (account (createdChunk config (engine.nextRef + 1) i type tag cio)).charge o = 0 := by
          unfold Account.charge account createdChunk
          rw [Bool.and_false, if_neg Bool.false_ne_true]
        rw [uncharged]
        refine Eq.trans ?_ (add_zero _).symm
        unfold linkChunk htAdd
        split
        · rfl
        · rfl
      · intro counted
        cases counted
      · intro _ data
        exact absurd empty data
      · intro i' type' tag' c' here
        change (linkChunk tag _ engine.storage).htChunks i' type' tag' = some c' at here
        unfold linkChunk htAdd at here
        split at here
        · exact .inl here
        · simp only at here
          split at here
          next same =>
            obtain ⟨rfl, -, -⟩ := same
            cases here
            exact .inr ⟨rfl, rfl, fun counted => by cases counted⟩
          · exact .inl here

private theorem counted_of_routed {mask : RoutesMask} (limited : config.isLimited o = true)
    (routed : mask.getBit o = true) :
    (config.outputs.any fun out => out.totalLimitSize.isSome && mask.getBit out.id) = true := by
  obtain ⟨out, member, rfl, size⟩ := Overlimit.isLimited_iff.mp limited
  rw [any_eq_true]
  exact ⟨out, member, and_eq_true_iff.mpr ⟨Option.isNone_eq_false_iff.mp size, routed⟩⟩

/-- What `flb_input_chunk_update_output_instances` makes of an account. -/
def Account.count (config : Config) (a : Account) : Account :=
  { a with fsCounted := a.fsCounted || config.outputs.any fun o =>
      o.totalLimitSize.isSome && a.routesMask.getBit o.id }

theorem accounts_update (listed : engine.storage.chunk? c = some ic) (size : SizeT) :
    (books (engine.withStorage (inputChunkUpdateOutputInstances config c size))).accounts =
      Tally.replace Account.ref c (Account.count config) (books engine).accounts := by
  unfold books Engine.withStorage inputChunkUpdateOutputInstances
  simp only [listed]
  exact map_replace (fun _ => rfl) fun _ _ _ => rfl

theorem sizes_update (listed : engine.storage.chunk? c = some ic) (size : SizeT) (o : OutId) :
    (books (engine.withStorage (inputChunkUpdateOutputInstances config c size))).sizes o =
      if config.isLimited o && ic.routesTo o then (books engine).sizes o + size else (books engine).sizes o := by
  unfold books Engine.withStorage inputChunkUpdateOutputInstances
  simp [listed]

theorem table_update (listed : engine.storage.chunk? c = some ic) (size : SizeT) :
    (books (engine.withStorage (inputChunkUpdateOutputInstances config c size))).table = (books engine).table := by
  unfold books Engine.withStorage inputChunkUpdateOutputInstances
  simp [listed]

theorem charge_count (a : Account) {o : OutId} (limited : config.isLimited o = true) :
    (a.count config).charge o = if a.routesMask.getBit o then a.realSize else 0 := by
  unfold Account.charge Account.count
  cases routed : a.routesMask.getBit o with
  | false => rfl
  | true => rw [counted_of_routed limited routed, Bool.or_true, Bool.and_self]

theorem filled_count (a : Account) : Filled config (a.count config) := by
  intro _ _ uncounted o limited routed
  have mask : a.routesMask.getBit o = true := routed
  have counted : (a.count config).fsCounted = true := by
    unfold Account.count
    rw [counted_of_routed limited mask, Bool.or_true]
  rw [counted] at uncounted
  cases uncounted

def link (ic : InputChunk) (engine : Engine) : Engine :=
  engine.withStorage fun storage => { storage with chunks := storage.chunks ++ [ic] }

private theorem accounts_link :
    (books (link ic engine)).accounts = (books engine).accounts ++ [account ic] := map_append

theorem chunk?_link (kept : Kept config (books engine)) (new : ic.ref = engine.nextRef) :
    (link ic engine).storage.chunk? ic.ref = some ic := by
  change (engine.storage.chunks ++ [ic]).find? (·.ref = ic.ref) = some ic
  have absent : engine.storage.chunks.find? (fun other => decide (other.ref = ic.ref)) = none := by
    rw [List.find?_eq_none]
    intro other listed same
    have older : other.ref < engine.nextRef := kept.fresh (account other) (mem_map_of_mem listed)
    rw [of_decide_eq_true same, new] at older
    exact Nat.lt_irrefl _ older
  rw [List.find?_append, absent, Option.none_or]
  exact List.find?_cons_of_pos (decide_eq_true rfl)

theorem Kept.linkMapped (kept : Kept config (books engine)) (new : ic.ref = engine.nextRef)
    (size : ic.chunk.realSize ≠ 0) :
    Kept config (books { engine.tock with
      storage := FluentBit.linkMapped config ic engine.storage, nextRef := engine.nextRef + 1 }) := by
  have found := chunk?_link kept new
  apply @Kept.enter config (books engine) _ kept ((account ic).count config)
  · have others : Tally.replace Account.ref ic.ref (Account.count config) (books engine).accounts =
        (books engine).accounts := by
      apply replace_of_forall_ne
      intro old listed same
      have older := kept.fresh old listed
      rw [same, new] at older
      exact Nat.lt_irrefl _ older
    have self : Tally.replace Account.ref ic.ref (Account.count config) [account ic] = [(account ic).count config] :=
      congrArg (fun a => [a]) (if_pos rfl)
    have accounts := @accounts_update config _ _ _ found (sizeOfSSize (inputChunkGetRealSize ic))
    rw [accounts_link] at accounts
    refine accounts.trans ?_
    unfold Tally.replace at others self ⊢
    rw [map_append, others, self]
  · exact Nat.le_of_eq new.symm
  · exact Nat.lt_succ_of_le (Nat.le_of_eq new)
  · intro o limited
    have sizes := @sizes_update config _ _ _ found (sizeOfSSize (inputChunkGetRealSize ic)) o
    refine sizes.trans ?_
    rw [charge_count (account ic) limited, limited, Bool.true_and, inputChunkGetRealSize_of_ne size, sizeOfSSize_natCast]
    change (if ic.routesTo o = true then _ else _) = _ + BitVec.ofNat 64 (if ic.routesTo o = true then _ else _)
    split
    · rfl
    · exact (add_zero _).symm
  · exact fun _ => size
  · exact filled_count _
  · intro i type tag c here
    have table := @table_update config _ _ _ found (sizeOfSSize (inputChunkGetRealSize ic))
    exact .inl ((congrFun (congrFun (congrFun table i) type) tag).symm.trans here)

theorem Kept.map (kept : Kept config (books engine)) (i : InputId) (type : EventType) (cio : CioChunk) :
    Kept config (books (inputChunkMap env config i type cio engine).2.2) := by
  rcases @inputChunkMap_cases env config i type cio engine with ⟨left, refused⟩ | ⟨records, left, nonnegative, mapped⟩
  · rw [refused]
    exact kept
  · have size : left.realSize ≠ 0 := by
      intro empty
      have negative : inputChunkGetRealSize (mappedChunk config engine.nextRef i type records left) = -1 :=
        (inputChunkGetRealSize_eq _).trans (if_pos empty)
      rw [negative] at nonnegative
      exact absurd nonnegative (by decide)
    rw [mapped]
    exact kept.linkMapped rfl size

theorem books_setChunk (change : InputChunk → InputChunk) (keeps : ∀ ic, account (change ic) = account ic) :
    books (engine.withStorage fun storage => storage.setChunk c change) = books engine := by
  unfold books
  congr 1
  exact map_replace_of_fixed keeps

theorem books_setCio (change : CioChunk → CioChunk)
    (keeps : ∀ cio, (change cio).realSize = cio.realSize ∧ (change cio).dataSize = cio.dataSize) :
    books (engine.withStorage (setCio c change)) = books engine := by
  apply books_setChunk
  intro ic
  unfold account
  rw [(keeps ic.chunk).1, (keeps ic.chunk).2]

theorem books_inputChunkDown : books (engine.withStorage (inputChunkDown c)) = books engine :=
  books_setCio CioChunk.down (fun _ => ⟨rfl, rfl⟩)

theorem same_account (distinct : ((books engine).accounts.map (·.ref)).Nodup) {ic' : InputChunk}
    (same : books after = books engine) (listed : engine.storage.chunk? c = some ic)
    (there : after.storage.chunk? c = some ic') : account ic' = account ic := by
  have member := member_account there
  rw [same] at member
  have ref : (account ic').ref = (account ic).ref :=
    (Storage.chunk?_some there).2.trans (Storage.chunk?_some listed).2.symm
  exact inj_on_of_nodup_map distinct member (member_account listed) ref

private theorem books_inputChunkSetUp (c : ChunkRef) (engine : Engine) :
    books (inputChunkSetUp env c engine).2 = books engine := by
  unfold inputChunkSetUp
  cases engine.storage.chunk? c with
  | none => rfl
  | some ic =>
    simp only
    split
    · rfl
    · split
      · exact books_setCio CioChunk.setUp (fun _ => ⟨rfl, rfl⟩)
      · rfl

theorem Kept.flush (kept : Kept config (books engine)) (c : ChunkRef) :
    books (inputChunkFlush env config c engine).2 = books engine := by
  unfold inputChunkFlush
  cases listed : engine.storage.chunk? c with
  | none => rfl
  | some ic =>
    have setUp := @books_inputChunkSetUp env c engine
    rcases raised : inputChunkSetUp env c engine with ⟨_ | _, up⟩
    · rw [raised] at setUp
      exact setUp
    · rw [raised] at setUp
      have locked : books (up.withStorage (setCio c CioChunk.lock)) = books engine :=
        (books_setCio CioChunk.lock (fun _ => ⟨rfl, rfl⟩)).trans setUp
      simp only
      split
      · have busy : books ((up.withStorage (setCio c CioChunk.lock)).tock.withStorage fun storage =>
            storage.setChunk c fun ic => { ic with busy := true }) = books engine :=
          (books_setChunk (fun ic => { ic with busy := true }) (fun _ => rfl)).trans locked
        split
        · exact busy
        next ic' there =>
          have same := congrArg Account.realSize (same_account kept.distinct busy listed there)
          have size : inputChunkGetRealSize ic' = inputChunkGetRealSize ic := by
            have equal : ic'.chunk.realSize = ic.chunk.realSize := same
            rw [inputChunkGetRealSize_eq, inputChunkGetRealSize_eq, equal]
          rw [size, if_neg (not_not.mpr rfl)]
          exact busy
      · exact locked

end

end FluentBit.ChunkAccounts
