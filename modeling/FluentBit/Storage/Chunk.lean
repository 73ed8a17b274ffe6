import FluentBit.Engine.State

/-! Chunks and their accounting, after `flb_input_chunk.c` and the parts of
Chunk I/O it relies on. Chunk I/O changes the size it reports for a chunk only
when data is written to it; setting a chunk up or down leaves it alone. -/

set_option autoImplicit false

namespace FluentBit

namespace CioChunk

/-- `cio_chunk_get_content_size`: a chunk that is down reports no content. -/
def contentSize (chunk : CioChunk) : Nat := if chunk.up then chunk.dataSize else 0

def headerMin : Nat := 24

/-- `cio_chunk_write` on success. A file holds its header, metadata and content
and is rounded up by the file system; a memory chunk is as long as its data. -/
def write (chunk : CioChunk) (count fileSize : Nat) : CioChunk :=
  { chunk with
    dataSize := chunk.dataSize + count
    realSize := if chunk.file
      then max (headerMin + chunk.metaSize + chunk.dataSize + count) fileSize
      else chunk.dataSize + count
    sound := by
      have sound := chunk.sound
      split at sound <;> simp_all [headerMin] }

/-- `cio_chunk_write_at(chunk, offset, NULL, 0)`: the content is cut, the file is not. -/
def truncate (chunk : CioChunk) (offset : Nat) : CioChunk :=
  { chunk with
    dataSize := offset
    realSize := if chunk.file then chunk.realSize else offset
    sound := by
      have sound := chunk.sound
      split at sound <;> simp_all }

/-- `cio_chunk_down`: memory chunks are always up. -/
def down (chunk : CioChunk) : CioChunk :=
  { chunk with
    up := chunk.up && !chunk.file
    sound := by
      have sound := chunk.sound
      split at sound <;> simp_all }

/-- `cio_chunk_up` on success. -/
def setUp (chunk : CioChunk) : CioChunk :=
  { chunk with
    up := true
    sound := by
      have sound := chunk.sound
      split at sound <;> simp_all }

def lock (chunk : CioChunk) : CioChunk :=
  { chunk with locked := true, sound := chunk.sound }

end CioChunk

def inputChunkGetSize (ic : InputChunk) : Nat := ic.chunk.contentSize

/-- `flb_input_chunk_get_real_size`, -1 for a chunk without data. -/
def inputChunkGetRealSize (ic : InputChunk) : Int :=
  if ic.chunk.realSize ≠ 0 then ic.chunk.realSize
  else if inputChunkGetSize ic = 0 then -1
  else inputChunkGetSize ic + ic.chunk.metaSize + 2 + 4 + 16 + 2

def sizeOfSSize (bytes : Int) : SizeT := BitVec.ofInt 64 bytes

namespace InputChunk

def routesTo (ic : InputChunk) (o : OutId) : Bool := ic.routesMask.getBit o

end InputChunk

variable (env : Env) (config : Config)

def inputChunkUpdateOutputInstances (c : ChunkRef) (chunkSize : SizeT) (storage : Storage) : Storage :=
  match storage.chunk? c with
  | none => storage
  | some ic =>
    { storage with
      fsChunksSize := fun o =>
        if config.isLimited o && ic.routesTo o then storage.fsChunksSize o + chunkSize
        else storage.fsChunksSize o
      chunks := Tally.replace InputChunk.ref c
        (fun ic => { ic with
          fsCounted := ic.fsCounted ||
            config.outputs.any fun o => o.totalLimitSize.isSome && ic.routesTo o.id })
        storage.chunks }

/-- The loop over the outputs shared by `flb_input_chunk_destroy` and
`flb_input_chunk_destroy_corrupted`. -/
def uncountChunk (ic : InputChunk) (storage : Storage) : Storage :=
  { storage with
    fsChunksSize := fun o =>
      if config.isLimited o && decide (inputChunkGetRealSize ic ≠ -1) && ic.routesTo o && ic.fsCounted
      then storage.fsChunksSize o - sizeOfSSize (inputChunkGetRealSize ic)
      else storage.fsChunksSize o }

/-- `flb_hash_table_del_ptr` on the table of the chunk's event type. -/
def htDelPtr (i : InputId) (type : EventType) (tag : Tag) (c : ChunkRef) (storage : Storage) : Storage :=
  if storage.htChunks i type tag = some c then
    { storage with
      htChunks := fun i' type' tag' =>
        if i' = i ∧ type' = type ∧ tag' = tag then none else storage.htChunks i' type' tag' }
  else storage

/-- `flb_hash_table_add`. Blobs have no table. -/
def htAdd (i : InputId) (type : EventType) (tag : Tag) (c : ChunkRef) (storage : Storage) : Storage :=
  if type = .blobs then storage
  else { storage with
    htChunks := fun i' type' tag' =>
      if i' = i ∧ type' = type ∧ tag' = tag then some c else storage.htChunks i' type' tag' }

/-- `cio_chunk_close` and the unlinking of the input chunk. -/
def unlinkChunk (c : ChunkRef) (storage : Storage) : Storage :=
  { storage with chunks := Tally.discard InputChunk.ref c storage.chunks }

def inputChunkDestroyCorrupted (c : ChunkRef) (tag : Tag) (del : Bool) (storage : Storage) : Storage :=
  match storage.chunk? c with
  | none => storage
  | some ic =>
    let storage := uncountChunk config ic storage
    let storage := if del then htDelPtr ic.ins ic.eventType tag c storage else storage
    unlinkChunk c storage

/-- `flb_input_chunk_destroy`. The chunk is set up to read its tag; when that
fails the hash table keeps its entry. -/
def inputChunkDestroy (c : ChunkRef) (del : Bool) (engine : Engine) : Engine :=
  match engine.storage.chunk? c with
  | none => { engine with fault := true }
  | some ic =>
    let tagRead := engine.answers env .chunkTag
    engine.tock.withStorage fun storage =>
      let storage := uncountChunk config ic storage
      let storage := if del && tagRead then htDelPtr ic.ins ic.eventType ic.chunk.tag c storage else storage
      unlinkChunk c storage

def openChunks (storage : Storage) : List CioChunk :=
  storage.chunks.map (·.chunk) ++ storage.backlog.cio

def inputChunkTotalSize (i : InputId) (storage : Storage) : Nat :=
  ((openChunks storage).filter (·.stream = i)).foldl (fun total chunk => total + chunk.contentSize) 0

def inputChunkIsMemOverlimit (i : InputId) (storage : Storage) : Bool :=
  decide (0 < config.memBufLimit i) && decide (config.memBufLimit i ≤ (storage.memory i).memChunksSize)

def inputChunkIsStorageOverlimit (i : InputId) (storage : Storage) : Bool :=
  decide (config.storageType i = .fs) &&
    (config.input? i).any (·.storagePauseOnChunksOverlimit) &&
    decide (config.maxChunksUp ≤ (openChunks storage).countP fun chunk => chunk.file && chunk.up)

def setMemory (i : InputId) (change : InputMemory → InputMemory) (storage : Storage) : Storage :=
  { storage with
    memory := fun i' => if i' = i then change (storage.memory i') else storage.memory i' }

def inputBufPaused (i : InputId) (storage : Storage) : Bool :=
  (storage.memory i).memBufPaused || (storage.memory i).storageBufPaused

def inputChunkSetLimits (i : InputId) (storage : Storage) : Storage :=
  let total := inputChunkTotalSize i storage
  let storage := setMemory i (fun memory => { memory with memChunksSize := total }) storage
  let accepting := storage.isRunning && storage.isIngestionActive
  let storage :=
    if !inputChunkIsMemOverlimit config i storage && accepting
    then setMemory i (fun memory => { memory with memBufPaused := false }) storage else storage
  if !inputChunkIsStorageOverlimit config i storage && accepting
  then setMemory i (fun memory => { memory with storageBufPaused := false }) storage else storage

def inputChunkProtect (i : InputId) (storage : Storage) : Storage :=
  if inputChunkIsStorageOverlimit config i storage then
    setMemory i (fun memory => { memory with storageBufPaused := true }) storage
  else if config.storageType i = .fs then storage
  else if inputChunkIsMemOverlimit config i storage then
    if config.storageType i = .memrb then storage
    else setMemory i (fun memory => { memory with memBufPaused := true }) storage
  else storage

def setCio (c : ChunkRef) (change : CioChunk → CioChunk) (storage : Storage) : Storage :=
  storage.setChunk c fun ic => { ic with chunk := change ic.chunk }

def inputChunkDown (c : ChunkRef) (storage : Storage) : Storage := setCio c CioChunk.down storage

/-- `flb_input_chunk_set_up`: true unless the chunk is down and stays down. -/
def inputChunkSetUp (c : ChunkRef) (engine : Engine) : Bool × Engine :=
  match engine.storage.chunk? c with
  | none => (false, { engine with fault := true })
  | some ic =>
    if ic.chunk.up then (true, engine)
    else if engine.answers env .chunkUp then
      (true, engine.tock.withStorage (setCio c CioChunk.setUp))
    else (false, engine.tock)

def inputChunkSetUpDown (c : ChunkRef) (storage : Storage) : Storage :=
  match storage.chunk? c with
  | none => storage
  | some ic =>
    let refresh := fun storage : Storage => setMemory ic.ins (fun memory =>
      { memory with memChunksSize := inputChunkTotalSize ic.ins storage }) storage
    let storage := refresh storage
    if inputChunkIsMemOverlimit config ic.ins storage && ic.chunk.up
    then refresh (inputChunkDown c storage) else storage

def inputChunkReleaseLock (c : ChunkRef) (storage : Storage) : Storage :=
  storage.setChunk c fun ic => { ic with busy := false }

/-- `flb_input_chunk_flush`: the size of the buffer handed out, if there is one. -/
def inputChunkFlush (c : ChunkRef) (engine : Engine) : Option Nat × Engine :=
  match engine.storage.chunk? c with
  | none => (none, { engine with fault := true })
  | some ic =>
    let preSize := sizeOfSSize (inputChunkGetRealSize ic)
    match inputChunkSetUp env c engine with
    | (false, engine) => (none, engine)
    | (true, engine) =>
      let engine := engine.withStorage (setCio c CioChunk.lock)
      if engine.answers env .chunkContent then
        let engine := engine.tock.withStorage fun storage =>
          storage.setChunk c fun ic => { ic with busy := true }
        match engine.storage.chunk? c with
        | none => (none, engine)
        | some ic =>
          let postSize := sizeOfSSize (inputChunkGetRealSize ic)
          let engine := if postSize ≠ preSize
            then engine.withStorage (inputChunkUpdateOutputInstances config c (postSize - preSize))
            else engine
          (some ic.chunk.dataSize, engine)
      else (none, engine.tock)

def inputChunkMetaHeader : Nat := 4

def inputChunkTagMax : Nat := 65535 - inputChunkMetaHeader

/-- `cio_chunk_open` for a new chunk: nothing but its header and metadata. A
chunk in memory is always up. -/
def createdCio (ref : ChunkRef) (i : InputId) (type : EventType) (tag : Tag) (file openedUp : Bool)
    (fileSize : Nat) : CioChunk :=
  { ref, stream := i, file, dataSize := 0, tag, eventType := type, locked := false
    metaSize := inputChunkMetaHeader + min tag.length inputChunkTagMax
    realSize := if file
      then max (CioChunk.headerMin + (inputChunkMetaHeader + min tag.length inputChunkTagMax)) fileSize
      else 0
    up := !file || openedUp
    sound := by cases file <;> simp [CioChunk.headerMin] }

/-- The input chunk of `flb_input_chunk_create`. -/
def createdChunk (ref : ChunkRef) (i : InputId) (type : EventType) (tag : Tag) (cio : CioChunk) : InputChunk :=
  { ref, ins := i, eventType := type, fsCounted := false, busy := false,
    fsBacklog := false, totalRecords := 0, addedRecords := 0, chunk := cio,
    task := none, routesMask := routesMaskSetByTag config tag }

def linkChunk (tag : Tag) (ic : InputChunk) (storage : Storage) : Storage :=
  htAdd ic.ins ic.eventType tag ic.ref { storage with chunks := storage.chunks ++ [ic] }

/-- The calls of `flb_input_chunk_create` that can fail; on success, whether
Chunk I/O opened the chunk up. A chunk opened down is forced up to write its
header and set down again. -/
def chunkOpened (file : Bool) (engine : Engine) : Option Bool :=
  let openedUp := !file || engine.answers env .chunkUp
  let forcedUp := openedUp || engine.tock.answers env .chunkUp
  if engine.answers env .chunkOpen && forcedUp && engine.answers env .chunkHeader && engine.answers env .chunkAlloc
  then some openedUp else none

def inputChunkCreate (i : InputId) (type : EventType) (tag : Tag) (engine : Engine) : Option ChunkRef × Engine :=
  let file := decide (config.storageType i = .fs)
  match chunkOpened env file engine with
  | none => (none, engine.tock.tock)
  | some openedUp =>
    let cio := createdCio engine.nextRef i type tag file openedUp (engine.supplies env .fileSize)
    let ic := createdChunk config (engine.nextRef + 1) i type tag cio
    (some ic.ref, { engine.tock.tock with
      storage := linkChunk tag ic engine.storage
      nextRef := engine.nextRef + 2 })

/-- The validation of a backlog chunk in `flb_input_chunk_map`: the records and
the number of valid bytes when something can be recovered. -/
def inputChunkValidate (type : EventType) (engine : Engine) : Option (Nat × Nat) :=
  if type = .logs ∨ type = .metrics then
    let records := engine.supplies env .chunkRecords
    let offset := engine.supplies env .chunkOffset
    if records = 0 then none
    else if engine.answers env .chunkValid then some (records, offset)
    else if 32 < offset then some (records, offset)
    else none
  else none

/-- The part of `flb_input_chunk_map` that reads the chunk: the number of its
records, if the chunk is any good, and the chunk without what follows the last
valid record. -/
def readBacklogChunk (type : EventType) (cio : CioChunk) (engine : Engine) : Option Nat × CioChunk :=
  if engine.answers env .chunkAlloc && engine.answers env .chunkContent then
    match inputChunkValidate env type engine with
    | none => (none, cio)
    | some (records, offset) =>
      (if engine.answers env .chunkTag then some records else none,
        if offset < cio.contentSize then cio.truncate offset else cio)
  else (none, cio)

/-- The input chunk of `flb_input_chunk_map`. -/
def mappedChunk (ref : ChunkRef) (i : InputId) (type : EventType) (records : Nat) (cio : CioChunk) : InputChunk :=
  { ref, ins := i, eventType := type, fsCounted := false, busy := false,
    fsBacklog := true, totalRecords := records, addedRecords := 0, chunk := cio,
    task := none, routesMask := routesMaskSetByTag config cio.tag }

def linkMapped (ic : InputChunk) (storage : Storage) : Storage :=
  inputChunkUpdateOutputInstances config ic.ref (sizeOfSSize (inputChunkGetRealSize ic))
    { storage with chunks := storage.chunks ++ [ic] }

/-- `flb_input_chunk_map`. The second component is the Chunk I/O chunk as the
call leaves it; on success the new input chunk owns it. -/
def inputChunkMap (i : InputId) (type : EventType) (cio : CioChunk)
    (engine : Engine) : Option ChunkRef × CioChunk × Engine :=
  match readBacklogChunk env type cio engine with
  | (none, cio) => (none, cio, engine.tock)
  | (some records, cio) =>
    let ic := mappedChunk config engine.nextRef i type records cio
    if inputChunkGetRealSize ic < 0 then (none, cio, engine.tock)
    else (some ic.ref, cio, { engine.tock with
      storage := linkMapped config ic engine.storage
      nextRef := engine.nextRef + 1 })

/-! The queues of the storage backlog plugin, after
`plugins/in_storage_backlog/sb.c`. -/

/-- `cio_chunk_get_real_size`. Reading a chunk that was closed answers whatever
the freed memory holds. -/
def cioChunkGetRealSize (c : ChunkRef) (engine : Engine) : SizeT :=
  match engine.storage.backlog.cio.find? (·.ref = c) with
  | some cio => BitVec.ofNat 64 cio.realSize
  | none => BitVec.ofNat 64 (engine.supplies env .freedMemory)

/-- `cio_chunk_close` for a chunk of the backlog. -/
def closeBacklogChunk (c : ChunkRef) (storage : Storage) : Storage :=
  { storage with backlog := { storage.backlog with
    cio := Tally.discard CioChunk.ref c storage.backlog.cio } }

def setQueues (queues : List SbOutQueue) (storage : Storage) : Storage :=
  { storage with backlog := { storage.backlog with queues } }

def addBacklogSize (o : OutId) (size : SizeT) (storage : Storage) : Storage :=
  { storage with
    fsBacklogChunksSize := fun o' =>
      if o' = o then storage.fsBacklogChunksSize o' + size else storage.fsBacklogChunksSize o' }

def subBacklogSize (o : OutId) (size : SizeT) (storage : Storage) : Storage :=
  { storage with
    fsBacklogChunksSize := fun o' =>
      if o' = o then storage.fsBacklogChunksSize o' - size else storage.fsBacklogChunksSize o' }

/-- `sb_remove_chunk_from_segregated_backlog`: the first entry of the chunk,
charged with the size the chunk reports now. -/
def sbRemoveChunkFromSegregatedBacklog (target : ChunkRef) (realSize : SizeT) (queue : SbOutQueue)
    (storage : Storage) : SbOutQueue × Storage :=
  match queue.chunks.find? (·.chunk = target) with
  | none => (queue, storage)
  | some _ =>
    ({ queue with chunks := queue.chunks.eraseP (·.chunk = target) },
      subBacklogSize queue.ins realSize storage)

def removeFromQueues (target : ChunkRef) (realSize : SizeT) : List SbOutQueue → Storage → List SbOutQueue × Storage
  | [], storage => ([], storage)
  | queue :: rest, storage =>
    let (queue, storage) := sbRemoveChunkFromSegregatedBacklog target realSize queue storage
    let (rest, storage) := removeFromQueues target realSize rest storage
    (queue :: rest, storage)

def sbRemoveChunkFromSegregatedBacklogs (target : ChunkRef) (engine : Engine) : Engine :=
  let realSize := cioChunkGetRealSize env target engine
  engine.tock.withStorage fun storage =>
    let (queues, storage) := removeFromQueues target realSize storage.backlog.queues storage
    setQueues queues storage

/-- The queue loop of `sb_append_chunk_to_segregated_backlogs`; it ends at the
first entry that cannot be allocated. -/
def appendToQueues (target : ChunkRef) (mask : RoutesMask) (chunkSize : SizeT) :
    List SbOutQueue → Engine → Bool × List SbOutQueue × Engine
  | [], engine => (true, [], engine)
  | queue :: rest, engine =>
    if mask.getBit queue.ins then
      if engine.answers env .queueAlloc then
        let queue := { queue with chunks := queue.chunks ++ [⟨target, chunkSize⟩] }
        let engine := engine.tock.withStorage (addBacklogSize queue.ins chunkSize)
        let (ok, rest, engine) := appendToQueues target mask chunkSize rest engine
        (ok, queue :: rest, engine)
      else (false, queue :: rest, engine.tock)
    else
      let (ok, rest, engine) := appendToQueues target mask chunkSize rest engine
      (ok, queue :: rest, engine)

inductive SbAppended where
  | ok | noTag | noMemory
  deriving DecidableEq, Repr

/-- `sb_append_chunk_to_segregated_backlogs`. The test for a negative size is
on an unsigned value and never true. -/
def sbAppendChunkToSegregatedBacklogs (cio : CioChunk) (engine : Engine) : SbAppended × Engine :=
  if !engine.answers env .chunkTag then (.noTag, engine.tock)
  else
    let engine := engine.tock
    match appendToQueues env cio.ref (routesMaskSetByTag config cio.tag) (BitVec.ofNat 64 cio.realSize)
        engine.storage.backlog.queues engine with
    | (ok, queues, engine) =>
      (if ok then .ok else .noMemory, engine.withStorage (setQueues queues))

def setBacklogCio (c : ChunkRef) (change : CioChunk → CioChunk) (storage : Storage) : Storage :=
  { storage with backlog := { storage.backlog with
    cio := Tally.replace CioChunk.ref c change storage.backlog.cio } }

/-- `cio_chunk_up_force` on a chunk that is down. -/
inductive CioUp where
  | ok | error | corrupted
  deriving DecidableEq, Repr

def cioChunkUpForce (c : ChunkRef) (engine : Engine) : CioUp × Engine :=
  match engine.storage.backlog.cio.find? (·.ref = c) with
  | none => (.error, { engine with fault := true })
  | some cio =>
    if cio.up then (.ok, engine)
    else if engine.answers env .chunkUp then
      (.ok, engine.tock.withStorage (setBacklogCio c CioChunk.setUp))
    else if engine.answers env .chunkCorrupted then (.corrupted, engine.tock)
    else (.error, engine.tock)

/-- The body of the chunk loop of `sb_segregate_chunks`; false ends the call. -/
def segregateChunk (c : ChunkRef) (engine : Engine) : Bool × Engine :=
  match cioChunkUpForce env c engine with
  | (.corrupted, engine) =>
    if config.storageDelBadChunks && engine.answers env .chunkIrrecoverable
    then (true, engine.tock.withStorage (closeBacklogChunk c))
    else (true, engine.tock)
  | (.error, engine) => (false, engine)
  | (.ok, engine) =>
    match engine.storage.backlog.cio.find? (·.ref = c) with
    | none => (true, { engine with fault := true })
    | some cio =>
      match sbAppendChunkToSegregatedBacklogs env config cio engine with
      | (.ok, engine) =>
        (true, engine.withStorage (setBacklogCio c fun cio => cio.lock.down))
      | (_, engine) => (true, engine.withStorage (closeBacklogChunk c))

def segregateLoop : List ChunkRef → Engine → Engine
  | [], engine => engine
  | c :: rest, engine =>
    match segregateChunk env config c engine with
    | (true, engine) => segregateLoop rest engine
    | (false, engine) => engine

/-- `sb_allocate_backlogs` when every queue can be allocated. -/
def sbAllocateBacklogs (storage : Storage) : Storage :=
  setQueues (storage.backlog.queues ++ config.outputs.map fun o => ⟨o.id, []⟩) storage

def sbSegregateChunks (engine : Engine) : Engine :=
  if config.storageInputPlugin.isNone then engine
  else
    let engine := engine.withStorage (sbAllocateBacklogs config)
    segregateLoop env config (engine.storage.backlog.cio.map (·.ref)) engine

/-- The loop of `sb_release_output_queue_space` over the entries of the queue. -/
def releaseQueueLoop (required : SizeT) : List SbOutChunk → SizeT → Engine → SizeT × Engine
  | [], released, engine => (released, engine)
  | entry :: rest, released, engine =>
    let released := released + entry.size
    let engine := sbRemoveChunkFromSegregatedBacklogs env entry.chunk engine
    let engine := engine.withStorage (closeBacklogChunk entry.chunk)
    if released ≥ required then (released, engine)
    else releaseQueueLoop required rest released engine

/-- `sb_release_output_queue_space`: what is still required afterwards. -/
def sbReleaseOutputQueueSpace (o : OutId) (required : Int) (engine : Engine) : Int × Engine :=
  if config.storageInputPlugin.isNone then (required, engine)
  else match engine.storage.backlog.queues.find? (·.ins = o) with
    | none => (required, engine)
    | some queue =>
      let (released, engine) := releaseQueueLoop env (sizeOfSSize required) queue.chunks 0 engine
      (required - released.toInt, engine)

/-- The outcome of one visit of a queue in `cb_queue_chunks`. -/
inductive SbVisited where
  | empty | stuck | removed | mapped (size : Nat)
  deriving DecidableEq, Repr

/-- The body of the queue loop of `cb_queue_chunks`, on the first entry of a
queue. A chunk that has to go is closed first and its entries are removed after. -/
def visitQueue (i : InputId) (entry : SbOutChunk) (engine : Engine) : SbVisited × Engine :=
  let drop := fun engine : Engine =>
    sbRemoveChunkFromSegregatedBacklogs env entry.chunk (engine.withStorage (closeBacklogChunk entry.chunk))
  match cioChunkUpForce env entry.chunk engine with
  | (.corrupted, engine) => (.removed, drop engine)
  | (.error, engine) => (.stuck, engine)
  | (.ok, engine) =>
    match engine.storage.backlog.cio.find? (·.ref = entry.chunk) with
    | none => (.stuck, { engine with fault := true })
    | some cio =>
      if !engine.answers env .chunkTag then (.removed, drop engine.tock)
      else
        let engine := engine.tock
        let size := cio.contentSize
        if size = 0 then (.removed, drop engine)
        else match inputChunkMap env config i cio.eventType cio engine with
          | (none, cio, engine) =>
            (.removed, drop (engine.withStorage (setBacklogCio entry.chunk fun _ => cio)))
          | (some ic, cio, engine) =>
            -- the entries go while the chunk is still open, then the input chunk owns it
            let engine := engine.withStorage (setBacklogCio entry.chunk fun _ => cio)
            let engine := sbRemoveChunkFromSegregatedBacklogs env entry.chunk engine
            let engine := engine.withStorage (closeBacklogChunk entry.chunk)
            (.mapped size, engine.withStorage (inputChunkDown ic))

def visitQueues (i : InputId) : List Nat → Nat → Nat → Engine → Nat × Nat × Engine
  | [], total, empty, engine => (total, empty, engine)
  | position :: rest, total, empty, engine =>
    match (engine.storage.backlog.queues[position]?).bind (·.chunks.head?) with
    | none => visitQueues i rest total (empty + 1) engine
    | some entry =>
      match visitQueue env config i entry engine with
      | (.mapped size, engine) => visitQueues i rest (total + size) empty engine
      | (_, engine) => visitQueues i rest total empty engine

/-- The loop of `cb_queue_chunks`, cut after a number of passes. -/
def queueChunksLoop (i : InputId) : Nat → Nat → Nat → Engine → Engine
  | 0, _, _, engine => engine
  | passes + 1, total, empty, engine =>
    let queues := engine.storage.backlog.queues.length
    if total < config.storageBlMemLimit ∧ empty < queues then
      match visitQueues env config i (List.range queues) total 0 engine with
      | (total, empty, engine) => queueChunksLoop i passes total empty engine
    else engine

def cbQueueChunks (i : InputId) (passes : Nat) (engine : Engine) : Engine :=
  queueChunksLoop env config i passes (inputChunkTotalSize i engine.storage) 0 engine

end FluentBit
