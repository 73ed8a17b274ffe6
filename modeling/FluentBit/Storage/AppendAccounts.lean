import FluentBit.Storage.ChunkAccounts

/-! What the outputs are charged with when records are appended, and over the runs of all calls. -/

set_option autoImplicit false

namespace FluentBit.ChunkAccounts

open List Tally

def Account.grow (realSize dataSize : Nat) (a : Account) : Account := { a with realSize, dataSize }

/-- `pre_real_size` of a chunk that is up. -/
def Account.preRealSize (a : Account) : SizeT := if a.dataSize = 0 then 0 else BitVec.ofNat 64 a.realSize

variable {after : Engine} {args : AppendRaw} {type : EventType}

section

variable {env : Env} {config : Config} {engine : Engine} {c : ChunkRef} {ic : InputChunk} {i : InputId}
  {b other : Books} {a : Account}

private theorem preRealSize_eq (kept : Kept config b) (member : a ∈ b.accounts) (fit : Fit config i a)
    (routable : config.isRoutable i = true) {o : OutId} (limited : config.isLimited o = true)
    (routed : a.routesMask.getBit o = true) : a.preRealSize = BitVec.ofNat 64 (a.charge o) := by
  unfold Account.preRealSize Account.charge
  cases counted : a.fsCounted with
  | true =>
    rw [routed, if_neg (fit.2 counted).1]
    rfl
  | false =>
    rw [Bool.and_false, if_neg Bool.false_ne_true]
    by_cases data : a.dataSize = 0
    · rw [if_pos data]
      rfl
    · rw [if_neg data]
      rw [← fit.1] at routable
      exact kept.filled a member routable data counted o limited routed

variable {realSize dataSize : Nat} {tag : Tag}

theorem Kept.grow (kept : Kept config b) (member : a ∈ b.accounts) (fit : Fit config i a) (size : realSize ≠ 0)
    (data : dataSize ≠ 0) (settled : config.isRoutable i = true → BitVec.ofNat 64 realSize = a.preRealSize)
    (accounts : other.accounts = Tally.replace Account.ref a.ref (Account.grow realSize dataSize) b.accounts)
    (sizes : other.sizes = b.sizes) (table : other.table = b.table) (next : other.next = b.next) :
    Kept config other := by
  apply kept.replace member (Account.grow realSize dataSize) (fun _ => rfl) accounts
  · intro o limited
    rw [sizes]
    congr 1
    unfold Account.charge Account.grow
    split
    next charged =>
      obtain ⟨routed, counted⟩ := Bool.and_eq_true_iff.mp charged
      have routable := (fit.2 counted).2
      have before := preRealSize_eq kept member fit routable limited routed
      unfold Account.charge at before
      rw [if_pos charged] at before
      rw [settled routable, before]
    · rfl
  · exact fun _ => size
  · intro routable _ uncounted o limited routed
    have owner : config.isRoutable i = true := by
      rw [← fit.1]
      exact routable
    have before := preRealSize_eq kept member fit owner limited routed
    have uncharged : a.charge o = 0 := by
      have flag : a.fsCounted = false := uncounted
      unfold Account.charge
      rw [flag, Bool.and_false, if_neg Bool.false_ne_true]
    rw [uncharged] at before
    exact (settled owner).trans before
  · exact fun _ _ _ _ fits => ⟨fits.1, fun counted => ⟨data, (fits.2 counted).2⟩⟩
  · exact table
  · exact next

theorem Kept.charge (kept : Kept config b) (member : a ∈ b.accounts) (fit : Fit config i a)
    (routable : config.isRoutable i = true) (size : realSize ≠ 0) (data : dataSize ≠ 0) (accounts : other.accounts =
      Tally.replace Account.ref a.ref (Account.count config ∘ Account.grow realSize dataSize) b.accounts)
    (sizes : ∀ o, config.isLimited o = true → other.sizes o =
      if a.routesMask.getBit o then b.sizes o + (BitVec.ofNat 64 realSize - a.preRealSize) else b.sizes o)
    (table : other.table = b.table) (next : other.next = b.next) : Kept config other := by
  apply kept.replace member (Account.count config ∘ Account.grow realSize dataSize) (fun _ => rfl) accounts
  · intro o limited
    rw [sizes o limited]
    have after := @charge_count config (a.grow realSize dataSize) o limited
    change ((a.grow realSize dataSize).count config).charge o = if a.routesMask.getBit o then realSize else 0 at after
    have composed : (Account.count config ∘ Account.grow realSize dataSize) a =
        (a.grow realSize dataSize).count config := rfl
    rw [composed, after]
    cases routed : a.routesMask.getBit o with
    | false =>
      have before : a.charge o = 0 := by
        unfold Account.charge
        rw [routed, Bool.false_and, if_neg Bool.false_ne_true]
      rw [before, if_neg Bool.false_ne_true, if_neg Bool.false_ne_true]
    | true =>
      rw [if_pos rfl, if_pos rfl, preRealSize_eq kept member fit routable limited routed, add_assoc, sub_add_cancel]
  · exact fun _ => size
  · exact filled_count _
  · intro i' type tag _ fits
    have owner : config.isRoutable i' = true := by
      rw [← fits.1, fit.1]
      exact routable
    exact ⟨fits.1, fun _ => ⟨data, owner⟩⟩
  · exact table
  · exact next

/-! ### After the write -/

private theorem realSize_of_data (cio : CioChunk) (data : cio.dataSize ≠ 0) : cio.realSize ≠ 0 := by
  have sound := cio.sound
  cases file : cio.file with
  | true =>
    rw [file, if_pos rfl] at sound
    exact Nat.pos_iff_ne_zero.mp sound
  | false =>
    rw [file, if_neg Bool.false_ne_true] at sound
    rw [sound.2]
    exact data

private theorem data_of_content {cio : CioChunk} (content : cio.contentSize ≠ 0) : cio.dataSize ≠ 0 := by
  unfold CioChunk.contentSize at content
  split at content
  · exact content
  · exact absurd rfl content

private theorem books_inputChunkProtect : books (engine.withStorage (inputChunkProtect config i)) = books engine := by
  unfold Engine.withStorage inputChunkProtect
  split
  · rfl
  · split
    · rfl
    · split
      · split
        · rfl
        · rfl
      · rfl

private theorem books_appendUnload : books (engine.withStorage (appendUnload config args c)) = books engine := by
  unfold Engine.withStorage appendUnload
  cases engine.storage.chunk? c with
  | none => rfl
  | some ic =>
    simp only
    split
    · exact books_inputChunkDown
    · rfl

def Books.grown (b : Books) (c : ChunkRef) (ic : InputChunk) : Books :=
  { b with accounts := Tally.replace Account.ref c (Account.grow ic.chunk.realSize ic.chunk.dataSize) b.accounts }

private theorem refs_grown : (b.grown c ic).accounts.map (·.ref) = b.accounts.map (·.ref) :=
  map_replace_of_fixed fun _ => rfl

private theorem account_grown (kept : Kept config b) (member : a ∈ b.accounts)
    (listed : engine.storage.chunk? a.ref = some ic)
    (grown : books engine = b.grown a.ref ic) : account ic = a.grow ic.chunk.realSize ic.chunk.dataSize := by
  have here := member_account listed
  rw [grown] at here
  obtain ⟨old, oldListed, shape⟩ := mem_replace.mp here
  have ref : ic.ref = a.ref := (Storage.chunk?_some listed).2
  by_cases same : old.ref = a.ref
  · have equal : old = a := inj_on_of_nodup_map kept.distinct oldListed member same
    rw [if_pos same, equal] at shape
    exact shape.symm
  · rw [if_neg same] at shape
    rw [shape] at same
    exact absurd ref same

theorem Kept.appendUpdateSize (kept : Kept config b) (member : a ∈ b.accounts) (fit : Fit config i a)
    (routable : config.isRoutable i = true) (listed : engine.storage.chunk? a.ref = some ic)
    (grown : books engine = b.grown a.ref ic) (data : ic.chunk.dataSize ≠ 0) :
    Kept config (books (engine.withStorage (FluentBit.appendUpdateSize config a.ref a.preRealSize))) := by
  have size := realSize_of_data ic.chunk data
  have known : sizeOfSSize (inputChunkGetRealSize ic) = BitVec.ofNat 64 ic.chunk.realSize := by
    rw [inputChunkGetRealSize_eq, if_neg size, sizeOfSSize_natCast]
  have updated : FluentBit.appendUpdateSize config a.ref a.preRealSize engine.storage =
      if BitVec.ofNat 64 ic.chunk.realSize - a.preRealSize ≠ 0
      then inputChunkUpdateOutputInstances config a.ref (BitVec.ofNat 64 ic.chunk.realSize - a.preRealSize) engine.storage
      else engine.storage := by
    unfold FluentBit.appendUpdateSize
    simp [listed, known]
  have shape := account_grown kept member listed grown
  have mask : ic.routesMask = a.routesMask := congrArg Account.routesMask shape
  unfold Engine.withStorage
  rw [updated]
  by_cases owed : BitVec.ofNat 64 ic.chunk.realSize - a.preRealSize = 0
  · rw [if_neg (not_not.mpr owed)]
    rw [grown]
    exact kept.grow member fit size data (fun _ => sub_eq_zero.mp owed) rfl rfl rfl rfl
  · rw [if_pos owed]
    apply kept.charge member fit routable size data
    · refine (accounts_update listed _).trans ?_
      rw [grown]
      exact replace_replace fun _ => rfl
    · intro o limited
      refine (sizes_update listed _ o).trans ?_
      have routed : ic.routesTo o = a.routesMask.getBit o := congrArg (fun mask => RoutesMask.getBit mask o) mask
      rw [limited, Bool.true_and, routed, grown]
      rfl
    · refine (table_update listed _).trans ?_
      rw [grown]
      rfl
    · have next := congrArg Books.next grown
      exact next

theorem chunk?_of_books (same : books after = books engine) (listed : engine.storage.chunk? c = some ic) :
    ∃ ic', after.storage.chunk? c = some ic' := by
  have member := member_account listed
  rw [← same] at member
  obtain ⟨other, otherListed, equal⟩ := mem_map.mp member
  have ref : other.ref = c := (congrArg Account.ref equal).trans (Storage.chunk?_some listed).2
  cases found : after.storage.chunk? c with
  | some ic' => exact ⟨ic', rfl⟩
  | none => exact absurd (decide_eq_true ref) (List.find?_eq_none.mp found other otherListed)

theorem Kept.appendAccount (kept : Kept config b) (args : AppendRaw) (setDown : Bool) (member : a ∈ b.accounts)
    (fit : Fit config args.ins a) (listed : engine.storage.chunk? a.ref = some ic)
    (grown : books engine = b.grown a.ref ic) (unwritten : inputChunkGetSize ic = 0 → Kept config (books engine)) :
    Kept config (books (FluentBit.appendAccount env config args a.ref a.preRealSize setDown engine)) := by
  unfold FluentBit.appendAccount
  rw [listed]
  simp only
  split
  next empty =>
    rw [books_inputChunkSetLimits]
    exact (unwritten empty).destroy a.ref true
  next content =>
    have data : ic.chunk.dataSize ≠ 0 := data_of_content content
    have locked : books (if inputChunkFsMaxSize < inputChunkGetSize ic
        then engine.withStorage (setCio a.ref CioChunk.lock) else engine) = books engine := by
      split
      · exact books_setCio CioChunk.lock (fun _ => ⟨rfl, rfl⟩)
      · rfl
    generalize (if inputChunkFsMaxSize < inputChunkGetSize ic
      then engine.withStorage (setCio a.ref CioChunk.lock) else engine) = first at locked ⊢
    have down : books (if setDown = true then first.withStorage (inputChunkDown a.ref) else first) = books engine := by
      split
      · exact books_inputChunkDown.trans locked
      · exact locked
    generalize (if setDown = true then first.withStorage (inputChunkDown a.ref) else first) = second at down ⊢
    split
    next unroutable =>
      apply Kept.destroy
      rw [down, grown]
      refine kept.grow member fit (realSize_of_data ic.chunk data) data ?_ rfl rfl rfl rfl
      intro routable
      rw [routable] at unroutable
      cases unroutable
    next routable =>
      have isRoutable : config.isRoutable args.ins = true := by simpa using routable
      change Kept config (books ((((second.withStorage (inputChunkSetLimits config args.ins)).withStorage
        (appendUnload config args a.ref)).withStorage (FluentBit.appendUpdateSize config a.ref a.preRealSize)).withStorage
        (inputChunkProtect config args.ins)))
      rw [books_inputChunkProtect]
      have settled : books ((second.withStorage (inputChunkSetLimits config args.ins)).withStorage
          (appendUnload config args a.ref)) = books engine :=
        (books_appendUnload.trans books_inputChunkSetLimits).trans down
      generalize ((second.withStorage (inputChunkSetLimits config args.ins)).withStorage
          (appendUnload config args a.ref)) = third at settled ⊢
      have distinct : ((books engine).accounts.map (·.ref)).Nodup := by
        rw [grown, refs_grown]
        exact kept.distinct
      obtain ⟨ic', there⟩ := chunk?_of_books settled listed
      have same := same_account distinct settled listed there
      have realSize : ic'.chunk.realSize = ic.chunk.realSize := congrArg Account.realSize same
      have dataSize : ic'.chunk.dataSize = ic.chunk.dataSize := congrArg Account.dataSize same
      apply kept.appendUpdateSize member fit isRoutable there
      · rw [settled, grown]
        unfold Books.grown
        rw [realSize, dataSize]
      · rw [dataSize]
        exact data

private theorem grown_self (distinct : ((books engine).accounts.map (·.ref)).Nodup)
    (listed : engine.storage.chunk? c = some ic) : (books engine).grown c ic = books engine := by
  have accounts : Tally.replace Account.ref c (Account.grow ic.chunk.realSize ic.chunk.dataSize)
      (books engine).accounts = (books engine).accounts := by
    apply replace_eq_self
    intro other otherListed ref
    have same : other = account ic := inj_on_of_nodup_map distinct otherListed (member_account listed)
      (ref.trans (Storage.chunk?_some listed).2.symm)
    rw [same]
    rfl
  unfold Books.grown
  rw [accounts]

private theorem books_inputChunkUpForce {outcome : CioUp} (raised : inputChunkUpForce env c engine = (outcome, after)) :
    books after = books engine := by
  unfold inputChunkUpForce at raised
  cases listed : engine.storage.chunk? c with
  | none =>
    rw [listed] at raised
    cases raised
    rfl
  | some ic =>
    rw [listed] at raised
    simp only at raised
    split at raised
    · cases raised
      rfl
    · split at raised
      · cases raised
        exact books_setCio CioChunk.setUp (fun _ => ⟨rfl, rfl⟩)
      · split at raised
        · cases raised
          rfl
        · cases raised
          rfl

private theorem appendWrite_false (refused : appendWrite env args c engine = (false, after)) :
    books after = books engine := by
  unfold appendWrite at refused
  cases listed : engine.storage.chunk? c with
  | none =>
    rw [listed] at refused
    cases refused
    rfl
  | some ic =>
    rw [listed] at refused
    simp only at refused
    split at refused
    · cases refused
    · split at refused
      · cases refused
      · cases refused
        exact books_setChunk (fun ic => { ic with addedRecords := 0 }) (fun _ => rfl)

private theorem chunks_distinct (distinct : ((books engine).accounts.map (·.ref)).Nodup) :
    (engine.storage.chunks.map (·.ref)).Nodup := by
  have refs : (books engine).accounts.map (·.ref) = engine.storage.chunks.map (·.ref) := map_map
  rwa [refs] at distinct

private theorem appendWrite_true (distinct : ((books engine).accounts.map (·.ref)).Nodup)
    (written : appendWrite env args c engine = (true, after)) :
    ∃ ic', after.storage.chunk? c = some ic' ∧ books after = (books engine).grown c ic' ∧
      (inputChunkGetSize ic' = 0 → books after = books engine) := by
  unfold appendWrite at written
  cases listed : engine.storage.chunk? c with
  | none =>
    rw [listed] at written
    cases written
  | some ic =>
    rw [listed] at written
    simp only at written
    split at written
    · cases written
      have same : books (engine.withStorage fun storage => storage.setChunk c (addRecords args)) = books engine :=
        books_setChunk (addRecords args) (fun _ => rfl)
      have there := Storage.chunk?_setChunk (addRecords args) (fun _ => rfl) engine.storage c
      rw [listed] at there
      refine ⟨addRecords args ic, there, ?_, fun _ => same⟩
      rw [same]
      exact (grown_self distinct listed).symm
    next data =>
      split at written
      next writes =>
        cases written
        have up : ic.chunk.up = true := (Bool.and_eq_true_iff.mp writes).1
        have there := Storage.chunk?_setChunk (fun ic => addRecords args { ic with
          chunk := ic.chunk.write args.finalSize (engine.supplies env .fileSize) }) (fun _ => rfl) engine.storage c
        rw [listed] at there
        refine ⟨_, there, ?_, fun empty => ?_⟩
        · have accounts := @map_replace _ _ _ InputChunk.ref c (fun ic => addRecords args { ic with
            chunk := ic.chunk.write args.finalSize (engine.supplies env .fileSize) }) engine.storage.chunks _
            Account.ref account
            (Account.grow (ic.chunk.write args.finalSize (engine.supplies env .fileSize)).realSize
              (ic.chunk.write args.finalSize (engine.supplies env .fileSize)).dataSize) (fun _ => rfl) (by
              intro other otherListed ref
              obtain ⟨member, named⟩ := Storage.chunk?_some listed
              have equal : other = ic := inj_on_of_nodup_map (chunks_distinct distinct) otherListed member
                (ref.trans named.symm)
              rw [equal]
              rfl)
          exact congrArg (fun accounts => { books engine with accounts }) accounts
        · have content : (if ic.chunk.up then ic.chunk.dataSize + args.finalSize else 0) = 0 := empty
          rw [if_pos up] at content
          exact absurd (Nat.add_eq_zero_iff.mp content).2 data
      · cases written

def Ready (config : Config) (i : InputId) (c : ChunkRef) (engine : Engine) : Prop :=
  ∀ ic ∈ engine.storage.chunks, ic.ref = c → Fit config i (account ic) ∧ (ic.chunk.up = true ∨ ic.chunk.dataSize = 0)

private theorem preRealSize_ready (ready : ic.chunk.up = true ∨ ic.chunk.dataSize = 0) :
    (if inputChunkGetSize ic = 0 then 0 else sizeOfSSize (inputChunkGetRealSize ic)) = (account ic).preRealSize := by
  have content : inputChunkGetSize ic = ic.chunk.dataSize := by
    unfold inputChunkGetSize CioChunk.contentSize
    cases ready with
    | inl up => rw [if_pos up]
    | inr empty => rw [empty, ite_self]
  unfold Account.preRealSize
  have data : (account ic).dataSize = ic.chunk.dataSize := rfl
  rw [content, data]
  by_cases empty : ic.chunk.dataSize = 0
  · rw [if_pos empty, if_pos empty]
  · rw [if_neg empty, if_neg empty, inputChunkGetRealSize_eq, if_neg (realSize_of_data ic.chunk empty),
      sizeOfSSize_natCast]
    rfl

theorem Kept.appendWritten (kept : Kept config (books engine)) (args : AppendRaw) {loaded : Engine}
    (listed : engine.storage.chunk? c = some ic) (ref : ic.ref = c) (fit : Fit config args.ins (account ic))
    (same : books loaded = books engine) (setDown : Bool) :
    Kept config (books (match appendWrite env args c loaded with
      | (false, engine) => engine
      | (true, engine) => FluentBit.appendAccount env config args c (account ic).preRealSize setDown engine)) := by
  cases written : appendWrite env args c loaded with
  | mk ok after =>
    cases ok with
    | false =>
      rw [← same, ← appendWrite_false written] at kept
      exact kept
    | true =>
      have distinct : ((books loaded).accounts.map (·.ref)).Nodup := by
        rw [same]
        exact kept.distinct
      obtain ⟨ic', there, grown, unwritten⟩ := appendWrite_true distinct written
      rw [same] at grown unwritten
      have owner : (account ic).ref = c := ref
      rw [← owner] at there grown ⊢
      apply kept.appendAccount args setDown (member_account listed) fit there grown
      intro empty
      rw [unwritten empty]
      exact kept

theorem Kept.appendChunk (kept : Kept config (books engine)) (args : AppendRaw) (setDown : Bool)
    (ready : Ready config args.ins c engine) :
    Kept config (books (FluentBit.appendChunk env config args c setDown engine)) := by
  unfold FluentBit.appendChunk
  cases listed : engine.storage.chunk? c with
  | none => exact kept
  | some ic =>
    obtain ⟨member, ref⟩ := Storage.chunk?_some listed
    obtain ⟨fit, up⟩ := ready ic member ref
    simp only [preRealSize_ready up]
    cases raised : inputChunkUpForce env c engine with
    | mk outcome loaded =>
      have same := books_inputChunkUpForce raised
      cases outcome with
      | error =>
        rw [← same] at kept
        exact kept
      | ok | corrupted => exact kept.appendWritten args listed ref fit same _

/-! ### The chunk for the records -/

private theorem eq_of_listed (kept : Kept config (books engine)) {other : InputChunk}
    (member : other ∈ engine.storage.chunks)
    (ref : other.ref = c) (listed : engine.storage.chunk? c = some ic) : other = ic := by
  obtain ⟨listedMember, named⟩ := Storage.chunk?_some listed
  exact inj_on_of_nodup_map (chunks_distinct kept.distinct) member listedMember (ref.trans named.symm)

private theorem up_of_upForce (raised : inputChunkUpForce env c engine = (.ok, after)) :
    ∃ ic', after.storage.chunk? c = some ic' ∧ ic'.chunk.up = true := by
  unfold inputChunkUpForce at raised
  cases listed : engine.storage.chunk? c with
  | none =>
    rw [listed] at raised
    cases raised
  | some ic =>
    rw [listed] at raised
    simp only at raised
    split at raised
    next up =>
      cases raised
      exact ⟨ic, listed, up⟩
    · split at raised
      · cases raised
        exact ⟨_, chunk?_setCio CioChunk.setUp listed, rfl⟩
      · split at raised
        · cases raised
        · cases raised

theorem Kept.lookup (kept : Kept config (books engine)) {found : Option ChunkRef} {setDown : Bool}
    (result : inputChunkLookup env config i type tag engine = (found, setDown, after)) :
    Kept config (books after) ∧ ∀ c, found = some c → Ready config i c after := by
  unfold inputChunkLookup at result
  cases here : engine.storage.htChunks i type tag with
  | none =>
    rw [here] at result
    cases result
    exact ⟨kept, fun _ nothing => by cases nothing⟩
  | some c =>
    have fits := (kept.found i type tag c here).2
    rw [here] at result
    simp only at result
    cases listed : engine.storage.chunk? c with
    | none =>
      rw [listed] at result
      cases result
      exact ⟨kept, fun _ nothing => by cases nothing⟩
    | some ic =>
      rw [listed] at result
      simp only at result
      split at result
      · cases result
        exact ⟨kept, fun _ nothing => by cases nothing⟩
      · split at result
        next up =>
          cases result
          refine ⟨kept, fun c' same other otherListed ref => ?_⟩
          cases same
          refine ⟨fits (account other) (mem_map_of_mem otherListed) ref, .inl ?_⟩
          rw [eq_of_listed kept otherListed ref listed]
          exact up
        next down =>
          cases raised : inputChunkUpForce env c engine with
          | mk outcome loaded =>
            have same := books_inputChunkUpForce raised
            have keptLoaded : Kept config (books loaded) := by
              rw [same]
              exact kept
            rw [raised] at result
            cases outcome with
            | error =>
              cases result
              exact ⟨keptLoaded, fun _ nothing => by cases nothing⟩
            | corrupted =>
              cases result
              exact ⟨keptLoaded.destroyCorrupted c tag _, fun _ nothing => by cases nothing⟩
            | ok =>
              cases result
              refine ⟨keptLoaded, fun c' named other otherListed ref => ?_⟩
              cases named
              have member : account other ∈ (books engine).accounts := by
                rw [← same]
                exact mem_map_of_mem otherListed
              refine ⟨fits (account other) member ref, .inl ?_⟩
              obtain ⟨ic', there, up⟩ := up_of_upForce raised
              rw [eq_of_listed keptLoaded otherListed ref there]
              exact up

theorem Kept.created_ready (kept : Kept config (books engine))
    (created : inputChunkCreate env config i type tag engine = (some c, after)) : Ready config i c after := by
  obtain ⟨cio, rfl, empty, -, rfl⟩ := inputChunkCreate_some created
  intro ic listed ref
  rw [chunks_linkChunk] at listed
  cases mem_append.mp listed with
  | inl old =>
    have older : ic.ref < engine.nextRef := kept.fresh (account ic) (mem_map_of_mem old)
    rw [ref] at older
    exact absurd older (Nat.not_lt.mpr (Nat.le_succ _))
  | inr new =>
    rw [mem_singleton.mp new]
    exact ⟨⟨rfl, fun counted => by cases counted⟩, .inr empty⟩

theorem Ready.outlives (ready : Ready config i c engine) (outlives : Outlives engine after) :
    Ready config i c after := by
  intro ic listed ref
  obtain ⟨old, oldListed, remains⟩ := outlives ic listed
  rw [remains.ref] at ref
  obtain ⟨⟨ins, counted⟩, up⟩ := ready old oldListed ref
  refine ⟨⟨remains.ins.trans ins, fun flag => ?_⟩, ?_⟩
  · have data : (account ic).dataSize = (account old).dataSize := congrArg CioChunk.dataSize remains.chunk
    rw [data]
    exact counted (remains.fsCounted.symm.trans flag)
  · rw [remains.chunk]
    exact up

def Reclaimed (config : Config) (chunkSize : SizeT) (storage : Storage) (o : OutId) : Prop :=
  config.isLimited o = true ∧ ∃ other, config.isLimited other = true ∧ o % 32 = other % 32 ∧
    exceedsLimit config storage other chunkSize = true

theorem Kept.placeNewChunk (kept : Kept config (books engine)) (chunkSize : SizeT) (ready : Ready config i c engine)
    (covered : config.storageType i = .fs → Covered config c (Reclaimed config chunkSize engine.storage) engine) :
    Kept config (books (inputChunkPlaceNewChunk env config c chunkSize engine).2) ∧
      Outlives engine (inputChunkPlaceNewChunk env config c chunkSize engine).2 := by
  unfold inputChunkPlaceNewChunk
  cases listed : engine.storage.chunk? c with
  | none => exact ⟨kept, .refl engine⟩
  | some ic =>
    obtain ⟨member, rfl⟩ := Storage.chunk?_some listed
    have owner : ic.ins = i := (ready ic member rfl).1.1
    simp only [owner]
    split
    next disk =>
      split
      · have steps := Overlimit.findSpaceLoop_eq env config ic
          (inputChunkHasOverlimitRoutes config ic chunkSize engine.storage) config.outputs engine
        have reclaims := @Overlimit.foldl_reclaims env config (Reclaimed config chunkSize engine.storage) ic
          (Overlimit.calls config ic (inputChunkHasOverlimitRoutes config ic chunkSize engine.storage)) (by
            intro o called
            obtain ⟨⟨limited, -⟩, other, ⟨otherLimited, -⟩, same, exceeding⟩ :=
              (Overlimit.mem_calls ic chunkSize engine.storage).mp called
            exact ⟨limited, other, otherLimited, same, exceeding⟩) engine
        unfold inputChunkFindSpaceNewData
        rw [steps]
        exact Kept.reclaims reclaims (covered disk) kept
      · exact ⟨kept, .refl engine⟩
    · exact ⟨kept, .refl engine⟩

theorem Kept.place (kept : Kept config (books engine)) (bufSize : Nat) (ready : Ready config i c engine)
    (covered : config.storageType i = .fs → Covered config c (Reclaimed config (BitVec.ofNat 64 bufSize) engine.storage) engine)
    {placed : Option ChunkRef} (result : inputChunkPlace env config c bufSize engine = (placed, after)) :
    Kept config (books after) ∧ ∀ c, placed = some c → Ready config i c after := by
  unfold inputChunkPlace at result
  split at result
  · cases result
    exact ⟨kept, fun c' same => by
      cases same
      exact ready⟩
  · have made := @Kept.placeNewChunk env config engine c i kept (BitVec.ofNat 64 bufSize) ready covered
    cases room : inputChunkPlaceNewChunk env config c (BitVec.ofNat 64 bufSize) engine with
    | mk ok left =>
      rw [room] at result made
      obtain ⟨keptLeft, outlives⟩ := made
      cases ok with
      | true =>
        cases result
        refine ⟨keptLeft, fun c' same => ?_⟩
        cases same
        exact ready.outlives outlives
      | false =>
        cases result
        exact ⟨keptLeft.destroy c true, fun _ nothing => by cases nothing⟩

def Spares (config : Config) (bufSize : Nat) (found : Option ChunkRef) (engine : Engine) : Prop :=
  ∀ ic ∈ engine.storage.chunks, found ≠ some ic.ref →
    ∀ o, Reclaimed config (BitVec.ofNat 64 bufSize) engine.storage o → ic.routesTo o = true → ic.fsCounted = true

theorem Spares.found {bufSize : Nat} (spares : Spares config bufSize (some c) engine) :
    Covered config c (Reclaimed config (BitVec.ofNat 64 bufSize) engine.storage) engine := by
  intro ic listed different o reclaimed _ routed
  exact spares ic listed (fun same => different (Option.some.inj same).symm) o reclaimed routed

private theorem exceedsLimit_linkChunk (storage : Storage) (o : OutId) (chunkSize : SizeT) :
    exceedsLimit config (linkChunk tag ic storage) o chunkSize = exceedsLimit config storage o chunkSize := by
  unfold linkChunk htAdd
  split
  · rfl
  · rfl

theorem Spares.created {bufSize : Nat} (spares : Spares config bufSize none engine) {tag : Tag}
    (created : inputChunkCreate env config i type tag engine = (some c, after)) :
    Covered config c (Reclaimed config (BitVec.ofNat 64 bufSize) after.storage) after := by
  obtain ⟨cio, rfl, -, -, rfl⟩ := inputChunkCreate_some created
  intro ic listed different o reclaimed _ routed
  rw [chunks_linkChunk] at listed
  cases mem_append.mp listed with
  | inl old =>
    obtain ⟨limited, other, otherLimited, same, exceeding⟩ := reclaimed
    have before : exceedsLimit config engine.storage other (BitVec.ofNat 64 bufSize) = true :=
      (exceedsLimit_linkChunk engine.storage other _).symm.trans exceeding
    exact spares ic old (fun nothing => by cases nothing) o ⟨limited, other, otherLimited, same, before⟩ routed
  | inr new =>
    rw [mem_singleton.mp new] at different
    exact absurd rfl different

theorem Kept.get (kept : Kept config (books engine)) {bufSize : Nat}
    (spares : config.storageType i = .fs → match inputChunkLookup env config i type (tag.take inputChunkTagMax) engine with | (found, _, after) => Spares config bufSize found after)
    {found : Option ChunkRef} {setDown : Bool}
    (result : inputChunkGet env config i type tag bufSize engine = (found, setDown, after)) :
    Kept config (books after) ∧ ∀ c, found = some c → Ready config i c after := by
  unfold inputChunkGet at result
  simp only at result
  rcases looked : inputChunkLookup env config i type (tag.take inputChunkTagMax) engine with ⟨_ | c, down, left⟩
  · rw [looked] at result spares
    simp only at result
    obtain ⟨keptLeft, -⟩ := kept.lookup looked
    rcases made : inputChunkCreate env config i type (tag.take inputChunkTagMax) left with ⟨_ | c, created⟩
    · rw [made] at result
      cases result
      rw [inputChunkCreate_none made]
      exact ⟨keptLeft, fun _ nothing => by cases nothing⟩
    · rw [made] at result
      have keptCreated := @Kept.create env config left keptLeft i type (tag.take inputChunkTagMax)
      rw [made] at keptCreated
      rcases placed : inputChunkPlace env config c bufSize created with ⟨chosen, last⟩
      simp only [placed] at result
      cases result
      exact keptCreated.place bufSize (keptLeft.created_ready made) (fun disk => (spares disk).created made) placed
  · rw [looked] at result spares
    obtain ⟨keptLeft, ready⟩ := kept.lookup looked
    rcases placed : inputChunkPlace env config c bufSize left with ⟨chosen, last⟩
    simp only [placed] at result
    cases result
    exact keptLeft.place bufSize (ready c rfl) (fun disk => (spares disk).found) placed

/-- Releasing space for the records takes no route of a chunk that was not counted. -/
def Appends (env : Env) (config : Config) (args : AppendRaw) (engine : Engine) : Prop :=
  config.storageType args.ins = .fs → inputBufPaused args.ins engine.storage = false → args.bufSize ≠ 0 →
    match inputChunkLookup env config args.ins args.eventType ((args.resolvedTag config).take inputChunkTagMax)
      engine with
    | (found, _, after) => Spares config args.bufSize found after

theorem Kept.append (kept : Kept config (books engine)) (appends : Appends env config args engine) :
    Kept config (books (inputChunkAppendRaw env config args engine)) := by
  unfold inputChunkAppendRaw
  have room : ∀ ok left, (if config.storageType args.ins = .memrb &&
        inputChunkIsMemOverlimit config args.ins engine.storage
      then memrbInputChunkReleaseSpace env config args.ins args.bufSize engine else (true, engine)) = (ok, left) →
      Kept config (books left) ∧ (config.storageType args.ins = .fs → left = engine) := by
    intro ok left released
    split at released
    next ring =>
      have memrb : config.storageType args.ins = .memrb := by
        simpa using (Bool.and_eq_true_iff.mp ring).1
      have steps := @memrbReleaseLoop_reclaims env config 0 (fun _ => False) args.bufSize
        ((engine.storage.inputChunks args.ins).map (·.ref)) 0 engine
      have same := congrArg Prod.snd released
      unfold memrbInputChunkReleaseSpace at same
      rw [same] at steps
      refine ⟨(Kept.reclaims steps (fun _ _ _ _ never => absurd never id) kept).1, fun disk => ?_⟩
      rw [memrb] at disk
      cases disk
    · cases released
      exact ⟨kept, fun _ => rfl⟩
  rcases released : (if config.storageType args.ins = .memrb &&
        inputChunkIsMemOverlimit config args.ins engine.storage
      then memrbInputChunkReleaseSpace env config args.ins args.bufSize engine else (true, engine)) with ⟨ok, left⟩
  obtain ⟨keptLeft, unchanged⟩ := room ok left released
  simp only
  split
  · exact keptLeft
  next going =>
    simp only [Bool.or_eq_true, Bool.not_eq_true', decide_eq_true_eq, not_or, Bool.not_eq_false,
      Bool.not_eq_true] at going
    obtain ⟨⟨-, running⟩, data⟩ := going
    rcases got : inputChunkGet env config args.ins args.eventType (args.resolvedTag config) args.bufSize left with
      ⟨_ | c, setDown, after⟩
    · exact (keptLeft.get (fun disk => by
        rw [unchanged disk] at running ⊢
        exact appends disk running data) got).1
    · obtain ⟨keptAfter, ready⟩ := keptLeft.get (fun disk => by
        rw [unchanged disk] at running ⊢
        exact appends disk running data) got
      exact keptAfter.appendChunk args setDown (ready c rfl)

/-! ### Runs -/

inductive Op where
  | create (i : InputId) (type : EventType) (tag : Tag)
  | append (args : AppendRaw)
  | map (i : InputId) (type : EventType) (cio : CioChunk)
  | flush (c : ChunkRef)
  | release (new : ChunkRef) (i : InputId) (o : OutId) (scope : ReleaseScope) (required : Int)
  | destroy (c : ChunkRef) (del : Bool)
  | destroyCorrupted (c : ChunkRef) (tag : Tag) (del : Bool)
  | elsewhere (after : Engine)

def step (env : Env) (config : Config) : Op → Engine → Engine
  | .create i type tag, engine => (inputChunkCreate env config i type tag engine).2
  | .append args, engine => inputChunkAppendRaw env config args engine
  | .map i type cio, engine => (inputChunkMap env config i type cio engine).2.2
  | .flush c, engine => (inputChunkFlush env config c engine).2
  | .release new i o scope required, engine => (inputChunkReleaseSpace env config new i o scope required engine).2
  | .destroy c del, engine => inputChunkDestroy env config c del engine
  | .destroyCorrupted c tag del, engine => engine.withStorage (inputChunkDestroyCorrupted config c tag del)
  | .elsewhere after, _ => after

def Accurate (config : Config) (engine : Engine) : Prop :=
  ∀ o, config.isLimited o = true → engine.storage.fsChunksSize o = BitVec.ofNat 64
    (((engine.storage.chunks.filter fun ic => ic.routesTo o && ic.fsCounted).map fun ic => ic.chunk.realSize).sum)

def Admissible (env : Env) (config : Config) (engine : Engine) : Op → Prop
  | .append args => Appends env config args engine
  | .release new _ o .onlyRoute _ => Covered config new (· = o) engine
  | .elsewhere after => Elsewhere (books engine) (books after)
  | _ => True

structure Unused (storage : Storage) : Prop where
  chunks : storage.chunks = []
  sizes : ∀ o, storage.fsChunksSize o = 0
  table : ∀ i type tag, storage.htChunks i type tag = none

private theorem total_eq (o : OutId) (chunks : List InputChunk) : total o (chunks.map account) =
      ((chunks.filter fun ic => ic.routesTo o && ic.fsCounted).map fun ic => ic.chunk.realSize).sum := by
  induction chunks with
  | nil => rfl
  | cons ic chunks ih =>
    have first : total o ((ic :: chunks).map account) = (account ic).charge o + total o (chunks.map account) := by
      unfold total
      rw [map_cons, map_cons, sum_cons]
    rw [first, ih]
    by_cases charged : (ic.routesTo o && ic.fsCounted) = true
    · have size : (account ic).charge o = ic.chunk.realSize := if_pos charged
      rw [size, filter_cons, if_pos charged, map_cons, sum_cons]
    · have size : (account ic).charge o = 0 := if_neg charged
      rw [size, filter_cons, if_neg charged, Nat.zero_add]

theorem Kept.accurate (kept : Kept config (books engine)) : Accurate config engine := by
  intro o limited
  rw [← total_eq]
  exact kept.balanced o limited

theorem Unused.kept (unused : Unused engine.storage) : Kept config (books engine) := by
  have accounts : (books engine).accounts = [] := by
    unfold books
    rw [unused.chunks]
    rfl
  constructor
  · rw [accounts]
    exact nodup_nil
  · rw [accounts]
    exact fun a member => absurd member not_mem_nil
  · rw [accounts]
    exact fun a member => absurd member not_mem_nil
  · rw [accounts]
    exact fun a member => absurd member not_mem_nil
  · intro i type tag c here
    have nothing := unused.table i type tag
    have there : engine.storage.htChunks i type tag = some c := here
    rw [nothing] at there
    cases there
  · intro o _
    rw [accounts]
    exact unused.sizes o

/-- Each step that is admitted keeps the books right. -/
theorem Kept.step (kept : Kept config (books engine)) {op : Op} (admissible : Admissible env config engine op) :
    Kept config (books (ChunkAccounts.step env config op engine)) := by
  cases op with
  | create i type tag => exact kept.create i type tag
  | append args => exact kept.append admissible
  | map i type cio => exact kept.map i type cio
  | flush c =>
    unfold ChunkAccounts.step
    rw [kept.flush c]
    exact kept
  | release new i o scope required =>
    apply kept.release
    intro only
    rw [only] at admissible
    exact admissible
  | destroy c del => exact kept.destroy c del
  | destroyCorrupted c tag del => exact kept.destroyCorrupted c tag del
  | elsewhere after => exact kept.elsewhere admissible

/-- In every run of such calls each output with a limit is charged with exactly its chunks. -/
theorem chunks_accurate (env : Env) (config : Config) (engine : Engine) (unused : Unused engine.storage) (ops : List Op)
    (admitted : Runs.Admits (ChunkAccounts.step env config) (Admissible env config) engine ops) :
    Accurate config (Runs.after (ChunkAccounts.step env config) engine ops) := by
  have path := Runs.path_after ops admitted
  have kept := path.invariant (fun engine => Kept config (books engine)) unused.kept
    fun _ _ kept admissible => kept.step admissible
  exact kept.accurate

end

def smallConfig : Config :=
  Sample.config .fs [{ Sample.output 0 with totalLimitSize := some 100 }] (by decide)

def manyLogs : AppendRaw := { Sample.logs [2] with bufSize := 200, filteredSize := 200 }

theorem started_unused : Unused (started Sample.noDisk).storage := ⟨rfl, fun _ => rfl, fun _ _ _ => rfl⟩

theorem appends_of_counted (env : Env) {config : Config} {engine : Engine}
    (counted : ∀ ic ∈ (inputChunkLookup env config args.ins args.eventType ((args.resolvedTag config).take inputChunkTagMax) engine).2.2.storage.chunks, ic.fsCounted = true) :
    Appends env config args engine := by
  intro _ _ _
  exact fun ic listed _ _ _ _ => counted ic listed

def fullRun : List Op := [.append (Sample.logs [1]), .append manyLogs, .flush 3, .destroy 3 true]

theorem chunks_accurate_fullRun : Accurate smallConfig
      (Runs.after (ChunkAccounts.step Sample.willing smallConfig) (started Sample.noDisk) fullRun) := by
  apply chunks_accurate Sample.willing smallConfig (started Sample.noDisk) started_unused fullRun
  refine ⟨appends_of_counted Sample.willing ?_, appends_of_counted Sample.willing ?_, trivial, trivial, trivial⟩
  · decide
  · decide

/-- The first write fails, and the room of the second append is made with a chunk that was never counted. -/
theorem uncounted_chunk_released : ¬ ∀ ops, Accurate smallConfig (Runs.after
      (ChunkAccounts.step (Sample.env fun site tick => decide (site = .chunkWrite ∧ tick = 2)) smallConfig)
      (started Sample.noDisk) ops) := by
  intro accurate
  have sizes := accurate [.append (Sample.logs [1]), .append manyLogs] 0 rfl
  exact absurd sizes (by decide)

end FluentBit.ChunkAccounts
