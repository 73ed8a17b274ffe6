import Mathlib.Data.List.Basic

/-! The connections of upstreams, after `src/flb_upstream.c`. A coroutine that
connects or uses a connection is suspended between the steps, so a step of one
connection can fall between two steps of another. -/

set_option autoImplicit false

namespace FluentBit.Upstream

abbrev Stream : Type := Nat
abbrev Conn : Type := Nat

/-- What the event of a connection is registered for: nothing, the `ka_dropped`
monitor of an idle connection, or the coroutine that waits for the socket, with
the monitor put back afterwards. -/
inductive Watch where
  | unregistered | monitor | coroutine (monitored : Bool)
deriving DecidableEq

@[simp] def Watch.monitored : Watch → Bool
  | unregistered => false
  | monitor => true
  | coroutine monitored => monitored

/-- `struct flb_connection`. `netError` says that `net_error` is not -1, `fdOpen`
that the descriptor is valid; a timeout that is not set is -1 in the source. -/
structure Connection where
  upstream : Stream
  fdOpen : Bool
  netError : Bool
  recycle : Bool
  busyFlag : Bool
  kaCount : Nat
  watch : Watch
  connectTimeout : Option Nat
  ioTimeout : Option Nat
  available : Nat

/-- `struct flb_net_setup` of an upstream. `keepaliveFlag` is `FLB_IO_TCP_KA`. -/
structure NetSetup where
  keepalive : Bool
  keepaliveFlag : Bool
  keepaliveIdleTimeout : Nat
  keepaliveMaxRecycle : Nat
  connectTimeout : Nat
  ioTimeout : Nat
  maxWorkerConnections : Nat

/-- The upstreams of a thread. `queueOf` is `flb_upstream_queue_get`: a thread-safe
upstream is served by the queue of its child in the thread. -/
structure Config where
  net : Stream → NetSetup
  parent : Stream → Option Stream
  queueOf : Stream → Stream
  totalGauge : Stream → Bool
  busyGauge : Stream → Bool
  parentBelow : ∀ stream above, parent stream = some above → above < stream
  queueChild : ∀ stream, queueOf stream = stream ∨ parent (queueOf stream) = some stream

/-- The queues hold the connections of all upstreams; the queue of one upstream is
the part of its connections. `freed`, `connecting`, `held`, `assigned` and
`dropped` record what was freed, who is connecting, who was handed out and not
released, who was ever handed out, and every move to the destroy queue. -/
structure Pool where
  next : Conn
  conn : Conn → Connection
  av : List Conn
  busy : List Conn
  destroy : List Conn
  freed : List Conn
  connecting : List Conn
  held : List Conn
  assigned : List Conn
  dropped : List Conn
  total : Stream → Int
  busyCount : Stream → Int

def resetIoTimeout (net : NetSetup) (now : Nat) (connection : Connection) : Connection :=
  if 0 < net.ioTimeout then { connection with ioTimeout := some (now + net.ioTimeout) } else connection

/-- `net_io_backup_event` keeps what was registered before a wait and
`net_io_restore_event` registers it again; a transfer renews the timeout. -/
def Connection.io (net : NetSetup) (waits fails recycle : Bool) (moved : Option Nat) (connection : Connection) :
    Connection :=
  { connection with
    watch :=
      if waits then .coroutine connection.watch.monitored
      else if connection.watch.monitored then .monitor
      else .unregistered
    netError := connection.netError || fails
    recycle := connection.recycle && recycle
    ioTimeout := (moved.elim connection (resetIoTimeout net · connection)).ioTimeout }

def unusedConnection : Connection :=
  { upstream := 0, fdOpen := false, netError := false, recycle := false, busyFlag := false, kaCount := 0
    watch := .unregistered, connectTimeout := none, ioTimeout := none, available := 0 }

def Pool.initial : Pool :=
  { next := 0, conn := fun _ => unusedConnection, av := [], busy := [], destroy := [], freed := []
    connecting := [], held := [], assigned := [], dropped := [], total := fun _ => 0, busyCount := fun _ => 0 }

namespace Pool

variable (config : Config)

def update (conn : Conn) (change : Connection → Connection) (pool : Pool) : Pool :=
  { pool with conn := Function.update pool.conn conn (change (pool.conn conn)) }

/-- `mk_list_del`: the node leaves the queue it is in. -/
def unlink (conn : Conn) (pool : Pool) : Pool :=
  { pool with
    av := pool.av.filter (· ≠ conn)
    busy := pool.busy.filter (· ≠ conn)
    destroy := pool.destroy.filter (· ≠ conn) }

def toAv (conn : Conn) (pool : Pool) : Pool :=
  { pool.unlink conn with av := (pool.unlink conn).av ++ [conn] }

def toBusy (conn : Conn) (pool : Pool) : Pool :=
  { pool.unlink conn with busy := (pool.unlink conn).busy ++ [conn] }

def toDestroy (conn : Conn) (pool : Pool) : Pool :=
  { pool.unlink conn with
    destroy := (pool.unlink conn).destroy ++ [conn]
    dropped := pool.dropped ++ [conn] }

end Pool

abbrev Gauge : Type := Stream → Int

def bump (present : Stream → Bool) (stream : Stream) (amount : Int) (gauge : Gauge) : Gauge :=
  if present stream then Function.update gauge stream (gauge stream + amount) else gauge

/-- `flb_upstream_increment_total_connections_count` goes on with the parent after
the call for it. -/
def incrementTotal (config : Config) (stream : Stream) (gauge : Gauge) : Gauge :=
  match _found : config.parent stream with
  | some above => bump config.totalGauge above 1 (incrementTotal config above gauge)
  | none => bump config.totalGauge stream 1 gauge
termination_by stream
decreasing_by exact config.parentBelow _ _ ‹_›

def changeAtRoot (config : Config) (present : Stream → Bool) (amount : Int) (stream : Stream) (gauge : Gauge) : Gauge :=
  match _found : config.parent stream with
  | some above => changeAtRoot config present amount above gauge
  | none => bump present stream amount gauge
termination_by stream
decreasing_by exact config.parentBelow _ _ ‹_›

def decrementTotal (config : Config) (stream : Stream) (gauge : Gauge) : Gauge :=
  changeAtRoot config config.totalGauge (-1) stream gauge

def incrementBusy (config : Config) (stream : Stream) (gauge : Gauge) : Gauge :=
  changeAtRoot config config.busyGauge 1 stream gauge

def decrementBusy (config : Config) (stream : Stream) (gauge : Gauge) : Gauge :=
  changeAtRoot config config.busyGauge (-1) stream gauge

namespace Pool

variable (config : Config)

/-! ### Operations -/

def prepareDestroyConn (conn : Conn) (pool : Pool) : Pool :=
  let closed := (pool.update conn fun connection =>
    { connection with watch := .unregistered, fdOpen := false }).toDestroy conn
  { closed with total := decrementTotal config (pool.conn conn).upstream closed.total }

/-- `destroy_conn` delays the destruction of connections with a busy flag. -/
def destroyConn (conn : Conn) (pool : Pool) : Pool :=
  if (pool.conn conn).busyFlag then pool
  else { pool.unlink conn with freed := pool.freed ++ [conn] }

/-- A connection is given to the caller of `flb_upstream_conn_get`. -/
def handOut (stream : Stream) (conn : Conn) (now : Nat) (pool : Pool) : Pool :=
  let assigned := pool.update conn (resetIoTimeout (config.net (pool.conn conn).upstream) now)
  { assigned with
    held := pool.held ++ [conn]
    assigned := pool.assigned ++ [conn]
    busyCount := incrementBusy config stream pool.busyCount }

/-- `create_conn` up to the call of `flb_io_net_connect`. -/
def createConn (stream : Stream) (now : Nat) (pool : Pool) : Pool :=
  let net := config.net stream
  let connection : Connection :=
    { unusedConnection with
      upstream := stream, busyFlag := true, recycle := net.keepaliveFlag
      connectTimeout := if 0 < net.connectTimeout then some (now + net.connectTimeout) else none }
  { pool with
    next := pool.next + 1
    conn := Function.update pool.conn pool.next connection
    busy := pool.busy ++ [pool.next]
    connecting := pool.connecting ++ [pool.next]
    total := incrementTotal config stream pool.total }

/-- The connections of `queue` that the upstream is served by. -/
def queueOf (stream : Stream) (pool : Pool) (queue : List Conn) : List Conn :=
  queue.filter fun conn => config.queueOf (pool.conn conn).upstream = config.queueOf stream

/-- The loop of `flb_upstream_conn_get` over the available connections. -/
def takeAvailable (socketFails : Conn → Bool) : List Conn → Pool → Option Conn × Pool
  | [], pool => (none, pool)
  | conn :: rest, pool =>
    if socketFails conn then
      takeAvailable socketFails rest ((pool.toBusy conn).prepareDestroyConn config conn)
    else
      (some conn, (pool.toBusy conn).update conn fun connection => { connection with netError := false })

/-- `flb_upstream_conn_get`, to its end or to the suspension of `create_conn`. -/
def connGet (stream : Stream) (socketFails : Conn → Bool) (allocFails : Bool) (now : Nat) (pool : Pool) : Pool :=
  let net := config.net stream
  if 0 < net.maxWorkerConnections ∧ net.maxWorkerConnections ≤ (pool.queueOf config stream pool.busy).length then
    pool
  else if net.keepalive then
    match pool.takeAvailable config socketFails (pool.queueOf config stream pool.av) with
    | (some conn, pool) => pool.handOut config stream conn now
    | (none, pool) => if allocFails then pool else pool.createConn config stream now
  else if allocFails then
    pool
  else
    pool.createConn config stream now

/-- The end of `create_conn` and of the `flb_upstream_conn_get` that called it.
Once a timeout has set `net_error`, `flb_io_net_connect` fails. -/
def connected (conn : Conn) (succeeds : Bool) (now : Nat) (pool : Pool) : Pool :=
  let stream := (pool.conn conn).upstream
  let resumed := { pool with connecting := pool.connecting.filter (· ≠ conn) }
  let unset := resumed.update conn fun connection => { connection with connectTimeout := none }
  if succeeds && !(pool.conn conn).netError then
    (unset.update conn fun connection =>
      { connection with busyFlag := false, fdOpen := true }).handOut config stream conn now
  else
    (unset.prepareDestroyConn config conn).update conn fun connection =>
      { connection with busyFlag := false }

def connRelease (conn : Conn) (registerFails : Bool) (now : Nat) (pool : Pool) : Pool :=
  let connection := pool.conn conn
  let net := config.net connection.upstream
  let released := { pool with
    held := pool.held.filter (· ≠ conn)
    busyCount := decrementBusy config connection.upstream pool.busyCount }
  if net.keepalive && connection.recycle && connection.fdOpen && !connection.netError then
    let available := (released.toAv conn).update conn fun connection => { connection with available := now }
    if registerFails then
      available.prepareDestroyConn config conn
    else
      let idle := available.update conn fun connection =>
        { connection with watch := .monitor, kaCount := connection.kaCount + 1 }
      if 0 < net.keepaliveMaxRecycle ∧ net.keepaliveMaxRecycle < connection.kaCount + 1 then
        idle.prepareDestroyConn config conn
      else
        idle
  else
    released.prepareDestroyConn config conn

def timedOut (now : Nat) (connection : Connection) : Bool :=
  let net := config.net connection.upstream
  (decide (0 < net.connectTimeout) && connection.connectTimeout.any fun limit => decide (limit ≤ now)) ||
    (decide (0 < net.ioTimeout) && connection.ioTimeout.any fun limit => decide (limit ≤ now))

/-- A busy connection in a timeout pass over `stream`. A registered event is injected,
which wakes the coroutine or the monitor later. -/
def timeoutBusy (stream : Stream) (now : Nat) (pool : Pool) (conn : Conn) : Pool :=
  if timedOut config now (pool.conn conn) then
    let failed := pool.update conn fun connection => { connection with netError := true }
    let dropped := if (pool.conn conn).watch = .unregistered then failed.prepareDestroyConn config conn
      else failed
    { dropped with busyCount := decrementBusy config stream dropped.busyCount }
  else
    pool

def timeoutIdle (stream : Stream) (now : Nat) (pool : Pool) (conn : Conn) : Pool :=
  if (pool.conn conn).available + (config.net stream).keepaliveIdleTimeout ≤ now then
    pool.prepareDestroyConn config conn
  else
    pool

/-- `flb_upstream_conn_timeouts` for one upstream of the list. -/
def connTimeouts (stream : Stream) (now : Nat) (pool : Pool) : Pool :=
  let swept := (pool.queueOf config stream pool.busy).foldl (timeoutBusy config stream now) pool
  (swept.queueOf config stream swept.av).foldl (timeoutIdle config stream now) swept

def connPendingDestroy (stream : Stream) (pool : Pool) : Pool :=
  (pool.queueOf config stream pool.destroy).foldl (fun pool conn => pool.destroyConn conn) pool

end Pool

/-- `use` stands for the I/O of a connecting or holding coroutine: it waits or ends,
may move data, may meet an error and may switch recycling off. -/
inductive Event where
  | connGet (stream : Stream) (socketFails : Conn → Bool) (allocFails : Bool) (now : Nat)
  | connected (conn : Conn) (succeeds : Bool) (now : Nat)
  | use (conn : Conn) (waits fails recycle : Bool) (moved : Option Nat)
  | connRelease (conn : Conn) (registerFails : Bool) (now : Nat)
  | dispatch (conn : Conn)
  | connTimeouts (stream : Stream) (now : Nat)
  | connPendingDestroy (stream : Stream)

/-- A coroutine only resumes where it was suspended, and only a holder releases. The
event of a connection calls `cb_upstream_conn_ka_dropped` while it is monitored. -/
def step (config : Config) (event : Event) (pool : Pool) : Pool :=
  match event with
  | .connGet stream socketFails allocFails now => pool.connGet config stream socketFails allocFails now
  | .connected conn succeeds now =>
    if conn ∈ pool.connecting then pool.connected config conn succeeds now else pool
  | .use conn waits fails recycle moved =>
    if conn ∈ pool.connecting ∨ conn ∈ pool.held then
      pool.update conn (.io (config.net (pool.conn conn).upstream) waits fails recycle moved)
    else pool
  | .connRelease conn registerFails now =>
    if conn ∈ pool.held then pool.connRelease config conn registerFails now else pool
  | .dispatch conn =>
    if (pool.conn conn).watch = .monitor then pool.prepareDestroyConn config conn else pool
  | .connTimeouts stream now => pool.connTimeouts config stream now
  | .connPendingDestroy stream => pool.connPendingDestroy config stream

end FluentBit.Upstream
