import FluentBit.Routes.Mask

/-! The part of `struct flb_config` that stays fixed while the engine runs, and
the answers of the operating system and of the libraries the engine calls. -/

set_option autoImplicit false

namespace FluentBit

abbrev SizeT := BitVec 64

abbrev Tag := List UInt8

abbrev OutId := Nat

abbrev InputId := Nat

abbrev ChunkRef := Nat

abbrev TaskRef := Nat

abbrev RetryRef := Nat

inductive EventType where
  | logs | metrics | traces | blobs
  deriving DecidableEq, Repr

/-- `FLB_STORAGE_FS`, `FLB_STORAGE_MEM` and `FLB_STORAGE_MEMRB`. -/
inductive StorageType where
  | fs | mem | memrb
  deriving DecidableEq, Repr

/-- The settings of `struct flb_output_instance`. `testMode` stands for a test
formatter being registered; no limit is the source's `(size_t) -1`. -/
structure OutputInstance where
  id : OutId
  routerMatch : Tag → Bool
  eventType : EventType → Bool
  synchronous : Bool
  noMultiplex : Bool
  isThreaded : Bool
  testMode : Bool
  retryLimit : Int
  totalLimitSize : Option Nat

/-- The settings of `struct flb_input_instance`. An output is connected directly
to an input when one of the two has just been created, so at most once. -/
structure InputInstance where
  id : InputId
  name : Tag
  tag : Tag
  storageType : StorageType
  memBufLimit : Nat
  storagePauseOnChunksOverlimit : Bool
  routable : Bool
  routesDirect : List OutId
  directOnce : routesDirect.Nodup

structure Config where
  outputs : List OutputInstance
  inputs : List InputInstance
  storageInputPlugin : Option InputId
  storageBlMemLimit : Nat
  storageDelBadChunks : Bool
  maxChunksUp : Nat
  outputIds : (outputs.map (·.id)).Nodup

namespace Config

def output? (config : Config) (o : OutId) : Option OutputInstance :=
  config.outputs.find? (·.id = o)

def input? (config : Config) (i : InputId) : Option InputInstance :=
  config.inputs.find? (·.id = i)

def isThreaded (config : Config) (o : OutId) : Bool := (config.output? o).any (·.isThreaded)

def isSynchronous (config : Config) (o : OutId) : Bool := (config.output? o).any (·.synchronous)

def isNoMultiplex (config : Config) (o : OutId) : Bool := (config.output? o).any (·.noMultiplex)

def isTestMode (config : Config) (o : OutId) : Bool := (config.output? o).any (·.testMode)

def retryLimit (config : Config) (o : OutId) : Int := (config.output? o).elim 0 (·.retryLimit)

def totalLimitSize (config : Config) (o : OutId) : Option Nat := (config.output? o).bind (·.totalLimitSize)

/-- `total_limit_size != -1` -/
def isLimited (config : Config) (o : OutId) : Bool := (config.totalLimitSize o).isSome

def isRoutable (config : Config) (i : InputId) : Bool := (config.input? i).all (·.routable)

def storageType (config : Config) (i : InputId) : StorageType := (config.input? i).elim .mem (·.storageType)

def memBufLimit (config : Config) (i : InputId) : Nat := (config.input? i).elim 0 (·.memBufLimit)

def routesDirect (config : Config) (i : InputId) : List OutId := (config.input? i).elim [] (·.routesDirect)

end Config

def routesMaskSetByTag (config : Config) (tag : Tag) : RoutesMask :=
  config.outputs.foldl
    (fun mask o => if o.routerMatch tag then mask.setBit o.id else mask) .cleared

inductive Site where
  | enqueueAlloc (o : OutId)
  | flushCreate (o : OutId)
  | pipeWrite (o : OutId)
  | poolFlush (o : OutId)
  | retryAlloc
  | timerCreate
  | requestAlloc
  | timeoutCreate
  | backoff
  | time
  | taskAlloc
  | eventChunkCreate
  | routeAlloc
  | routeStatus
  | eventCount
  | chunkOpen
  | chunkUp
  | chunkCorrupted
  | chunkIrrecoverable
  | chunkHeader
  | chunkAlloc
  | chunkContent
  | chunkWrite
  | fileSize
  | chunkTag
  | chunkValid
  | chunkRecords
  | chunkOffset
  | queueAlloc
  | freedMemory
  deriving DecidableEq, Repr

structure Env where
  ok : Site → Nat → Bool
  value : Site → Nat → Nat

def Env.Refuses (env : Env) (site : Site) : Prop := ∃ tick, env.ok site tick = false

/-- A request for a timer is refused, or the memory for one. -/
def Env.RefusesTimer (env : Env) (tick : Nat) : Prop :=
  env.ok .timerCreate tick = false ∨ env.ok .requestAlloc tick = false ∨ env.ok .timeoutCreate tick = false

end FluentBit
