import FluentBit.Engine.Task

/-! Making room for new data, after `flb_input_chunk.c`. Sizes that the source
keeps in a `ssize_t` are integers; the comparison of the total with the limit
is the source's `size_t` arithmetic. -/

set_option autoImplicit false

namespace FluentBit

variable (env : Env) (config : Config)

/-- `FLB_INPUT_CHUNK_RELEASE_SCOPE_LOCAL` and `FLB_INPUT_CHUNK_RELEASE_SCOPE_GLOBAL` -/
inductive ReleaseScope where
  | onlyRoute | wholeChunk
  deriving DecidableEq, Repr

/-- `flb_input_chunk_drop_task_route`: the number of dropped records when the
route may go. -/
def inputChunkDropTaskRoute (t : Option TaskRef) (o : OutId) (engine : Engine) : Option Nat × Engine :=
  match t with
  | none => (some 0, engine)
  | some t =>
    match engine.task? t with
    | none => (none, { engine with fault := true })
    | some task =>
      if task.users = 0 then (some 0, engine)
      else if taskGetRouteStatus task o = .inactive then
        (some task.records, taskSetRouteStatus t o .dropped engine)
      else (none, engine)

def inputChunkIsTaskSafeDelete (engine : Engine) (t : Option TaskRef) : Bool :=
  match t with
  | none => true
  | some t => (engine.task? t).all (·.users = 0)

/-- `flb_input_chunk_safe_delete`, on a chunk already found to route to the output. -/
def inputChunkSafeDelete (new : ChunkRef) (old : InputChunk) (o : OutId) : Bool :=
  decide (old.ref ≠ new) && old.routesTo o

def countDroppedRecords (o : OutId) (old : InputChunk) (engine : Engine) : Engine :=
  let readable := (old.chunk.up || engine.answers env .chunkUp) && engine.answers env .chunkContent
  match old.task with
  | some t => if readable then engine.tock.record (.recordsDropped o t) else engine.tock
  | none => engine.tock

def dropRoute (c : ChunkRef) (o : OutId) (size : Int) (storage : Storage) : Storage :=
  let storage := storage.setChunk c fun ic => { ic with routesMask := ic.routesMask.clearBit o }
  { storage with
    fsChunksSize := fun o' =>
      if o' = o then storage.fsChunksSize o' - sizeOfSSize size else storage.fsChunksSize o' }

def destroyReleased (old : InputChunk) (engine : Engine) : Bool × Engine :=
  match old.task with
  | none => (true, inputChunkDestroy env config old.ref true engine)
  | some t =>
    match engine.task? t with
    | none => (false, { engine with fault := true })
    | some task =>
      if task.users = 0 then (true, taskDestroy env config t true engine) else (false, engine)

/-- The body of the loop of `flb_input_chunk_release_space`: the bytes released,
or none when the chunk is passed over. -/
def releaseChunk (new : ChunkRef) (o : OutId) (scope : ReleaseScope)
    (c : ChunkRef) (engine : Engine) : Option Int × Engine :=
  match engine.storage.chunk? c with
  | none => (none, engine)
  | some old =>
    if !old.routesTo o || !inputChunkSafeDelete new old o then (none, engine)
    else match inputChunkDropTaskRoute old.task o engine with
      | (none, engine) => (none, engine)
      | (some dropped, engine) =>
        let chunkSize := inputChunkGetRealSize old
        let engine := match scope with
          | .onlyRoute => engine.withStorage (dropRoute c o chunkSize)
          | .wholeChunk => engine
        let engine := if dropped = 0 then countDroppedRecords env o old engine else engine
        match scope with
        | .onlyRoute =>
          if (old.routesMask.clearBit o).isEmpty
          then (some chunkSize, (destroyReleased env config old engine).2)
          else (some chunkSize, engine)
        | .wholeChunk =>
          let (released, engine) := destroyReleased env config old engine
          (some (if released then chunkSize else 0), engine)

def releaseLoop (new : ChunkRef) (o : OutId) (scope : ReleaseScope)
    (required : Int) : List ChunkRef → Int → Engine → Int × Engine
  | [], released, engine => (released, engine)
  | c :: rest, released, engine =>
    match releaseChunk env config new o scope c engine with
    | (none, engine) => releaseLoop new o scope required rest released engine
    | (some bytes, engine) =>
      if released + bytes ≥ required then (released + bytes, engine)
      else releaseLoop new o scope required rest (released + bytes) engine

/-- `flb_input_chunk_release_space`: what is still required afterwards. -/
def inputChunkReleaseSpace (new : ChunkRef) (i : InputId) (o : OutId)
    (scope : ReleaseScope) (required : Int) (engine : Engine) : Int × Engine :=
  let (released, engine) :=
    releaseLoop env config new o scope required ((engine.storage.inputChunks i).map (·.ref)) 0 engine
  (required - released, engine)

/-- The loop of `flb_input_chunk_release_space_compound` over the other inputs. -/
def releaseOtherInputs (new : ChunkRef) (own : InputId) (o : OutId) : List InputId → Int → Engine → Int × Engine
  | [], required, engine => (required, engine)
  | i :: rest, required, engine =>
    let (required, engine) :=
      if i = own then (required, engine)
      else inputChunkReleaseSpace env config new i o .onlyRoute required engine
    if required ≤ 0 then (required, engine)
    else releaseOtherInputs new own o rest required engine

/-- The first stage of `flb_input_chunk_release_space_compound`: chunks that the
storage backlog brought into the engine. -/
def releaseBacklogInput (new : ChunkRef) (o : OutId) (required : Int) (engine : Engine) : Int × Engine :=
  match config.storageInputPlugin with
  | none => (required, { engine with fault := true })
  | some i => inputChunkReleaseSpace env config new i o .wholeChunk required engine

def whileRequired (stage : Int → Engine → Int × Engine) (required : Int) (engine : Engine) : Int × Engine :=
  if 0 < required then stage required engine else (required, engine)

/-- `flb_input_chunk_release_space_compound` with local release: the space
required is the size of the chunk that receives the data. -/
def inputChunkReleaseSpaceCompound (new : InputChunk) (o : OutId) (engine : Engine) : Int × Engine :=
  let required := inputChunkGetRealSize new
  let (required, engine) := whileRequired (releaseBacklogInput env config new.ref o) required engine
  let (required, engine) := whileRequired (sbReleaseOutputQueueSpace env config o) required engine
  let (required, engine) := whileRequired
    (inputChunkReleaseSpace env config new.ref new.ins o .onlyRoute) required engine
  let (required, engine) := whileRequired
    (releaseOtherInputs env config new.ref new.ins o (config.inputs.map (·.id))) required engine
  (max required 0, engine)

/-- `1 << o_ins->id` on an `int` -/
def overlimitBit (o : OutId) : BitVec 32 := BitVec.twoPow 32 (o % 32)

/-- `fs_chunks_size + fs_backlog_chunks_size + chunk_size > total_limit_size` -/
def exceedsLimit (storage : Storage) (o : OutId) (chunkSize : SizeT) : Bool :=
  (config.totalLimitSize o).any fun limit =>
    storage.fsChunksSize o + storage.fsBacklogChunksSize o + chunkSize > BitVec.ofNat 64 limit

def inputChunkHasOverlimitRoutes (ic : InputChunk) (chunkSize : SizeT) (storage : Storage) : BitVec 32 :=
  config.outputs.foldl (fun overlimit o =>
    if ic.routesTo o.id && exceedsLimit config storage o.id chunkSize
    then overlimit ||| overlimitBit o.id else overlimit) 0

/-- The loop of `flb_input_chunk_find_space_new_data`. The routes mask of the
chunk that receives the data stays as it is. -/
def findSpaceLoop (new : InputChunk) (overlimit : BitVec 32) : List OutputInstance → Engine → Engine
  | [], engine => engine
  | o :: rest, engine =>
    if o.totalLimitSize.isNone || (overlimitBit o.id &&& overlimit) == 0 || !new.routesTo o.id
    then findSpaceLoop new overlimit rest engine
    else findSpaceLoop new overlimit rest
      (inputChunkReleaseSpaceCompound env config new o.id engine).2

def inputChunkFindSpaceNewData (new : InputChunk) (overlimit : BitVec 32) (engine : Engine) : Engine :=
  findSpaceLoop env config new overlimit config.outputs engine

/-- `flb_input_chunk_place_new_chunk`; false when the chunk has no route left. -/
def inputChunkPlaceNewChunk (c : ChunkRef) (chunkSize : SizeT) (engine : Engine) : Bool × Engine :=
  match engine.storage.chunk? c with
  | none => (false, { engine with fault := true })
  | some ic =>
    let engine :=
      if config.storageType ic.ins = .fs then
        let overlimit := inputChunkHasOverlimitRoutes config ic chunkSize engine.storage
        if overlimit ≠ 0 then inputChunkFindSpaceNewData env config ic overlimit engine else engine
      else engine
    (!((engine.storage.chunk? c).all (·.routesMask.isEmpty)), engine)

/-! Appending records to the chunks of an input, after `flb_input_chunk.c`. -/

def inputChunkFsMaxSize : Nat := 2048000

/-- The arguments of `input_chunk_append_raw`, and what the filters make of the
data of a log chunk. -/
structure AppendRaw where
  ins : InputId
  eventType : EventType
  nRecords : Nat
  tag : Option Tag
  bufSize : Nat
  filteredSize : Nat
  filteredRecords : Nat

namespace AppendRaw

def resolvedTag (args : AppendRaw) : Tag :=
  match args.tag with
  | some tag => tag
  | none => (config.input? args.ins).elim [] fun i => if i.tag.isEmpty then i.name else i.tag

def finalSize (args : AppendRaw) : Nat :=
  if args.eventType = .logs then args.filteredSize else args.bufSize

def finalRecords (args : AppendRaw) : Nat :=
  if args.eventType = .logs then args.filteredRecords else args.nRecords

end AppendRaw

/-- The body of the loop of `memrb_input_chunk_release_space`: the bytes of a
chunk that went. -/
def memrbReleaseChunk (c : ChunkRef) (engine : Engine) : Option Int × Engine :=
  match engine.storage.chunk? c with
  | none => (none, engine)
  | some ic =>
    if !inputChunkIsTaskSafeDelete engine ic.task then (none, engine)
    else match ic.task with
      | some t => (some (inputChunkGetRealSize ic), taskDestroy env config t true engine)
      | none => (some (inputChunkGetRealSize ic), inputChunkDestroy env config c true engine)

def memrbReleaseLoop (required : Nat) : List ChunkRef → Int → Engine → Int × Engine
  | [], released, engine => (released, engine)
  | c :: rest, released, engine =>
    match memrbReleaseChunk env config c engine with
    | (none, engine) => memrbReleaseLoop required rest released engine
    | (some bytes, engine) =>
      if sizeOfSSize (released + bytes) ≥ BitVec.ofNat 64 required then (released + bytes, engine)
      else memrbReleaseLoop required rest (released + bytes) engine

/-- `memrb_input_chunk_release_space`; false stands for -1. -/
def memrbInputChunkReleaseSpace (i : InputId) (required : Nat) (engine : Engine) : Bool × Engine :=
  let (released, engine) :=
    memrbReleaseLoop env config required ((engine.storage.inputChunks i).map (·.ref)) 0 engine
  (decide (sizeOfSSize released ≥ BitVec.ofNat 64 required), engine)

/-- `cio_chunk_up_force` on the chunk of an input. -/
def inputChunkUpForce (c : ChunkRef) (engine : Engine) : CioUp × Engine :=
  match engine.storage.chunk? c with
  | none => (.error, { engine with fault := true })
  | some ic =>
    if ic.chunk.up then (.ok, engine)
    else if engine.answers env .chunkUp then (.ok, engine.tock.withStorage (setCio c CioChunk.setUp))
    else if engine.answers env .chunkCorrupted then (.corrupted, engine.tock)
    else (.error, engine.tock)

/-- The chunk of the hash table that can take the data, and whether it has to
be set down again. A stale entry of the table points to a freed chunk. -/
def inputChunkLookup (i : InputId) (type : EventType) (tag : Tag) (engine : Engine) : Option ChunkRef × Bool × Engine :=
  match engine.storage.htChunks i type tag with
  | none => (none, false, engine)
  | some c =>
    match engine.storage.chunk? c with
    | none => (none, false, { engine with fault := true })
    | some ic =>
      if ic.busy || ic.chunk.locked then (none, false, engine)
      else if ic.chunk.up then (some c, false, engine)
      else match inputChunkUpForce env c engine with
        | (.ok, engine) => (some c, true, engine)
        | (.error, engine) => (none, true, engine)
        | (.corrupted, engine) =>
          (none, true, engine.withStorage
            (inputChunkDestroyCorrupted config c tag config.storageDelBadChunks))

/-- The placement step of `input_chunk_get`. -/
def inputChunkPlace (c : ChunkRef) (chunkSize : Nat) (engine : Engine) : Option ChunkRef × Engine :=
  if (engine.storage.chunk? c).all (·.routesMask.isEmpty) then (some c, engine)
  else match inputChunkPlaceNewChunk env config c (BitVec.ofNat 64 chunkSize) engine with
    | (true, engine) => (some c, engine)
    | (false, engine) => (none, inputChunkDestroy env config c true engine)

def inputChunkGet (i : InputId) (type : EventType) (tag : Tag)
    (chunkSize : Nat) (engine : Engine) : Option ChunkRef × Bool × Engine :=
  let tag := tag.take inputChunkTagMax
  match inputChunkLookup env config i type tag engine with
  | (some c, setDown, engine) =>
    let (placed, engine) := inputChunkPlace env config c chunkSize engine
    (placed, setDown, engine)
  | (none, setDown, engine) =>
    match inputChunkCreate env config i type tag engine with
    | (none, engine) => (none, setDown, engine)
    | (some c, engine) =>
      let (placed, engine) := inputChunkPlace env config c chunkSize engine
      (placed, setDown, engine)

def addRecords (args : AppendRaw) (ic : InputChunk) : InputChunk :=
  { ic with addedRecords := args.nRecords, totalRecords := ic.totalRecords + args.finalRecords }

/-- The write of `input_chunk_append_raw`; a failed one leaves the chunk as it
was. Nothing is written when the filters removed all records. -/
def appendWrite (args : AppendRaw) (c : ChunkRef) (engine : Engine) : Bool × Engine :=
  match engine.storage.chunk? c with
  | none => (false, { engine with fault := true })
  | some ic =>
    if args.finalSize = 0 then (true, engine.withStorage fun storage => storage.setChunk c (addRecords args))
    else if ic.chunk.up && engine.answers env .chunkWrite then
      (true, engine.tock.withStorage fun storage => storage.setChunk c fun ic =>
        addRecords args { ic with
          chunk := ic.chunk.write args.finalSize (engine.supplies env .fileSize) })
    else (false, engine.tock.withStorage fun storage =>
      storage.setChunk c fun ic => { ic with addedRecords := 0 })

def appendUnload (args : AppendRaw) (c : ChunkRef) (storage : Storage) : Storage :=
  match storage.chunk? c with
  | none => storage
  | some ic =>
    if inputChunkIsMemOverlimit config args.ins storage && decide (config.storageType args.ins = .fs) &&
        ic.chunk.up && decide (inputChunkGetSize ic ≤ inputChunkFsMaxSize) &&
        decide (inputChunkFsMaxSize - inputChunkGetSize ic < inputChunkFsMaxSize / 100)
    then inputChunkDown c storage else storage

def appendUpdateSize (c : ChunkRef) (preRealSize : SizeT) (storage : Storage) : Storage :=
  match storage.chunk? c with
  | none => storage
  | some ic =>
    let realDiff := sizeOfSSize (inputChunkGetRealSize ic) - preRealSize
    if realDiff ≠ 0 then inputChunkUpdateOutputInstances config c realDiff storage else storage

/-- The tail of `input_chunk_append_raw`, once the data is in the chunk. -/
def appendAccount (args : AppendRaw) (c : ChunkRef) (preRealSize : SizeT) (setDown : Bool) (engine : Engine) : Engine :=
  match engine.storage.chunk? c with
  | none => { engine with fault := true }
  | some ic =>
    if inputChunkGetSize ic = 0 then
      (inputChunkDestroy env config c true engine).withStorage (inputChunkSetLimits config args.ins)
    else
      let engine := if inputChunkFsMaxSize < inputChunkGetSize ic
        then engine.withStorage (setCio c CioChunk.lock) else engine
      let engine := if setDown then engine.withStorage (inputChunkDown c) else engine
      if !config.isRoutable args.ins then inputChunkDestroy env config c true engine
      else
        engine.withStorage fun storage =>
          let storage := appendUnload config args c (inputChunkSetLimits config args.ins storage)
          inputChunkProtect config args.ins (appendUpdateSize config c preRealSize storage)

/-- The middle of `input_chunk_append_raw`: the chunk is set up, its size kept
and the data written. -/
def appendChunk (args : AppendRaw) (c : ChunkRef) (setDown : Bool) (engine : Engine) : Engine :=
  match engine.storage.chunk? c with
  | none => { engine with fault := true }
  | some ic =>
    match inputChunkUpForce env c engine with
    | (.error, engine) => engine
    | (_, engine) =>
      let preRealSize :=
        if inputChunkGetSize ic = 0 then 0 else sizeOfSSize (inputChunkGetRealSize ic)
      let setDown := setDown || !ic.chunk.up
      match appendWrite env args c engine with
      | (false, engine) => engine
      | (true, engine) => appendAccount env config args c preRealSize setDown engine

def inputChunkAppendRaw (args : AppendRaw) (engine : Engine) : Engine :=
  let (room, engine) :=
    if config.storageType args.ins = .memrb && inputChunkIsMemOverlimit config args.ins engine.storage
    then memrbInputChunkReleaseSpace env config args.ins args.bufSize engine else (true, engine)
  if !room || inputBufPaused args.ins engine.storage || args.bufSize = 0 then engine
  else match inputChunkGet env config args.ins args.eventType (args.resolvedTag config) args.bufSize engine with
    | (none, _, engine) => engine
    | (some c, setDown, engine) => appendChunk env config args c setDown engine

end FluentBit
