import FluentBit.Foundation.Runs
import FluentBit.Upstream.Pool
import Mathlib.Data.List.Nodup

/-! Who owns a connection. A connection that was not freed is in one queue, and a
connection that was handed out stays in the busy queue until it is released, as
long as no timeout pass drops it under its holder.

Every operation is seen from one connection: what it does to the connection it
is about, and that it leaves all others alone. -/

set_option autoImplicit false

namespace FluentBit.Upstream

open List Function

/-! ### A connection on its own -/

structure View where
  created : Bool
  connection : Connection
  av : Nat
  busy : Nat
  destroy : Nat
  freed : Nat
  connecting : Bool
  held : Nat
  assigned : Bool
  dropped : Nat

namespace View

variable {view : View}

structure Owned (view : View) : Prop where
  place : view.av + view.busy + view.destroy + view.freed = view.created.toNat
  held_busy : 0 < view.held → view.held = 1 ∧ view.busy = 1 ∧ view.assigned = true
  connecting_place : view.connecting = true →
    view.busy = 1 ∨ view.destroy = 1 ∧ view.connection.netError = true
  flag : view.connection.busyFlag = view.connecting
  apart : view.connecting = true → view.assigned = false
  monitored : view.connection.watch.monitored = true → view.av = 1 ∨ 0 < view.held
  kept : 0 < view.av + view.busy → view.dropped = 0
  once : view.assigned = true → view.dropped ≤ 1
  fresh : view.created = false →
    view.held = 0 ∧ view.connecting = false ∧ view.assigned = false ∧ view.dropped = 0

theorem Owned.total (owned : view.Owned) : view.av + view.busy + view.destroy + view.freed ≤ 1 := by
  have place := owned.place
  have created := Bool.toNat_le view.created
  omega

theorem Owned.alive (owned : view.Owned) (queued : 0 < view.av + view.busy + view.destroy) :
    view.created = true ∧ view.freed = 0 := by
  have place := owned.place
  cases created : view.created with
  | true =>
    rw [created] at place
    simp only [Bool.toNat_true] at place
    exact ⟨rfl, by omega⟩
  | false =>
    rw [created] at place
    simp only [Bool.toNat_false] at place
    omega

theorem Owned.unused (owned : view.Owned) (available : view.av = 1) :
    view.held = 0 ∧ view.connecting = false ∧ view.dropped = 0 := by
  have total := owned.total
  refine ⟨?_, ?_, owned.kept (by omega)⟩
  · by_contra held
    have busy := (owned.held_busy (by omega)).2.1
    omega
  · by_contra connecting
    rcases owned.connecting_place (by simpa using connecting) with busy | ⟨destroyed, _⟩
    · omega
    · omega

def change (how : Connection → Connection) (view : View) : View :=
  { view with connection := how view.connection }

def toAv (view : View) : View := { view with av := 1, busy := 0, destroy := 0 }

def toBusy (view : View) : View := { view with av := 0, busy := 1, destroy := 0 }

def prepareDestroy (view : View) : View :=
  { view with
    connection := { view.connection with watch := .unregistered, fdOpen := false }
    av := 0, busy := 0, destroy := 1, dropped := view.dropped + 1 }

private theorem prepareDestroy_owned (alive : view.created = true ∧ view.freed = 0) (free : view.held = 0)
    (flag : view.connection.busyFlag = view.connecting)
    (connecting : view.connecting = true → view.connection.netError = true ∧ view.assigned = false)
    (first : view.assigned = true → view.dropped = 0) : view.prepareDestroy.Owned := by
  obtain ⟨created, unfreed⟩ := alive
  constructor <;> simp_all [View.prepareDestroy]

theorem Owned.prepareDestroy (owned : view.Owned) (available : view.av = 1) : view.prepareDestroy.Owned := by
  obtain ⟨free, idle, undropped⟩ := owned.unused available
  exact prepareDestroy_owned (owned.alive (by omega)) free owned.flag (by simp [idle]) fun _ => undropped

def handOut (how : Connection → Connection) (view : View) : View :=
  { view.change how with held := view.held + 1, assigned := true }

private theorem change_change (first second : Connection → Connection) :
    (view.change first).change second = view.change (second ∘ first) := rfl

private theorem handOut_change (first second : Connection → Connection) :
    (view.change first).handOut second = view.handOut (second ∘ first) := rfl

section

variable (owned : view.Owned)
include owned

theorem Owned.handOut (available : view.av = 1) (first second : Connection → Connection)
    (firstFlag : ∀ connection, (first connection).busyFlag = connection.busyFlag)
    (secondFlag : ∀ connection, (second connection).busyFlag = connection.busyFlag) :
    ((view.toBusy.change first).handOut second).Owned := by
  have total := owned.total
  obtain ⟨free, idle, undropped⟩ := owned.unused available
  obtain ⟨made, unfreed⟩ := owned.alive (by omega)
  have same := owned.flag
  constructor <;> simp_all [toBusy, change, View.handOut]

theorem Owned.connected (connecting : view.connecting = true) (busy : view.busy = 1) (how : Connection → Connection)
    (flag : ∀ connection, (how connection).busyFlag = false) :
    ({ view with connecting := false }.handOut how).Owned := by
  obtain ⟨created, unfreed⟩ := owned.alive (by omega)
  have total := owned.total
  have apart := owned.apart connecting
  have undropped := owned.kept (by omega)
  have free : view.held = 0 := by
    by_contra held
    simp [(owned.held_busy (by omega)).2.2] at apart
  have elsewhere : view.av = 0 ∧ view.destroy = 0 := by omega
  constructor <;> simp_all [change, View.handOut]

theorem Owned.connectFailed (connecting : view.connecting = true) (first second : Connection → Connection)
    (flag : ∀ connection, (second connection).busyFlag = false)
    (watch : ∀ connection, (second connection).watch = connection.watch) :
    (({ view with connecting := false }.change first).prepareDestroy.change second).Owned := by
  have queued : 0 < view.av + view.busy + view.destroy := by
    rcases owned.connecting_place connecting with busy | ⟨destroyed, _⟩
    · omega
    · omega
  obtain ⟨created, unfreed⟩ := owned.alive queued
  have apart := owned.apart connecting
  have free : view.held = 0 := by
    by_contra held
    simp [(owned.held_busy (by omega)).2.2] at apart
  constructor <;> simp_all [change, View.prepareDestroy]

theorem Owned.of_held (held : 0 < view.held) :
    view.created = true ∧ view.freed = 0 ∧ view.av = 0 ∧ view.destroy = 0 ∧ view.busy = 1 ∧
      view.connecting = false ∧ view.dropped = 0 := by
  obtain ⟨_, busy, assigned⟩ := owned.held_busy held
  have total := owned.total
  obtain ⟨created, unfreed⟩ := owned.alive (by omega)
  have idle : view.connecting = false := by
    by_contra connecting
    have apart := owned.apart (by simpa using connecting)
    simp [apart] at assigned
  exact ⟨created, unfreed, by omega, by omega, busy, idle, owned.kept (by omega)⟩

theorem Owned.releaseDropped (held : 0 < view.held) {after : View}
    (alive : after.created = view.created ∧ after.freed = view.freed) (free : after.held = 0)
    (flag : after.connection.busyFlag = view.connection.busyFlag) (connecting : after.connecting = view.connecting)
    (dropped : after.dropped = view.dropped) : after.prepareDestroy.Owned := by
  obtain ⟨created, unfreed, _, _, _, idle, undropped⟩ := owned.of_held held
  have same := owned.flag
  apply prepareDestroy_owned <;> simp_all

theorem Owned.releaseRecycled (held : 0 < view.held) (how : Connection → Connection)
    (flag : ∀ connection, (how connection).busyFlag = connection.busyFlag) :
    ({ view with held := 0 }.toAv.change how).Owned := by
  obtain ⟨created, unfreed, _, _, _, idle, undropped⟩ := owned.of_held held
  have same := owned.flag
  constructor <;> simp_all [change, toAv]

theorem Owned.use (how : Connection → Connection) (flag : ∀ connection, (how connection).busyFlag = connection.busyFlag)
    (watch : ∀ connection, (how connection).watch.monitored = true → connection.watch.monitored = true)
    (failed : ∀ connection, connection.netError = true → (how connection).netError = true) :
    (view.change how).Owned := by
  obtain ⟨place, held, connecting, same, apart, monitored, kept, once, fresh⟩ := owned
  constructor
  case connecting_place => exact fun busy => (connecting busy).imp id fun ⟨place, error⟩ => ⟨place, failed _ error⟩
  case flag => exact (flag _).trans same
  case monitored => exact fun monitor => monitored (watch _ monitor)
  all_goals assumption

end

end View

/-! ### A connection in the pool -/

namespace Pool

variable {pool : Pool} {conn other : Conn}

def view (pool : Pool) (conn : Conn) : View :=
  { created := decide (conn < pool.next)
    connection := pool.conn conn
    av := pool.av.count conn
    busy := pool.busy.count conn
    destroy := pool.destroy.count conn
    freed := pool.freed.count conn
    connecting := decide (conn ∈ pool.connecting)
    held := pool.held.count conn
    assigned := decide (conn ∈ pool.assigned)
    dropped := pool.dropped.count conn }

private theorem count_filter_ne (queue : List Conn) : (queue.filter fun member => !decide (member = conn)).count other =
      if other = conn then 0 else queue.count other := by
  split
  next same =>
    apply count_eq_zero.mpr
    simp [same]
  next different => exact count_filter (by simpa using different)

@[simp] theorem view_update_self (how : Connection → Connection) :
    (pool.update conn how).view conn = (pool.view conn).change how := by
  simp only [update, view, View.change, update_self]
  rfl

@[simp] theorem view_update_other (how : Connection → Connection) (apart : other ≠ conn) :
    (pool.update conn how).view other = pool.view other := by
  simp only [update, view, update_of_ne apart]
  rfl

@[simp] theorem view_toAv_self : (pool.toAv conn).view conn = (pool.view conn).toAv := by
  simp [toAv, unlink, view, View.toAv, count_filter_ne]

@[simp] theorem view_toAv_other (apart : other ≠ conn) : (pool.toAv conn).view other = pool.view other := by
  simp [toAv, unlink, view, apart, apart.symm]

@[simp] theorem view_toBusy_self : (pool.toBusy conn).view conn = (pool.view conn).toBusy := by
  simp [toBusy, unlink, view, View.toBusy, count_filter_ne]

@[simp] theorem view_toBusy_other (apart : other ≠ conn) : (pool.toBusy conn).view other = pool.view other := by
  simp [toBusy, unlink, view, apart, apart.symm]

@[simp] theorem view_prepareDestroyConn_self (config : Config) :
    (pool.prepareDestroyConn config conn).view conn = (pool.view conn).prepareDestroy := by
  simp [prepareDestroyConn, toDestroy, unlink, update, view, View.prepareDestroy, count_filter_ne]

@[simp] theorem view_prepareDestroyConn_other (config : Config) (apart : other ≠ conn) :
    (pool.prepareDestroyConn config conn).view other = pool.view other := by
  simp [prepareDestroyConn, toDestroy, unlink, update, view, apart, apart.symm]

end Pool

def Owns (pool : Pool) : Prop := ∀ conn, (pool.view conn).Owned

theorem owns_initial : Owns .initial := by
  intro conn
  constructor <;> simp [Pool.initial, Pool.view, unusedConnection]

section

variable {config : Config} {pool : Pool}

theorem Owns.at_conn {after : Pool} (owns : Owns pool) (conn : Conn)
    (others : ∀ other, other ≠ conn → after.view other = pool.view other)
    (own : (after.view conn).Owned) : Owns after := by
  intro other
  by_cases same : other = conn
  · rw [same]
    exact own
  · rw [others other same]
    exact owns other

theorem Owns.nodup (owns : Owns pool) : (pool.av ++ pool.busy ++ pool.destroy).Nodup := by
  apply nodup_iff_count_le_one.mpr
  intro conn
  have total := (owns conn).total
  simp only [Pool.view] at total
  simp only [count_append]
  omega

theorem foldl_each {change : Pool → Conn → Pool} {Good : Pool → Prop} (ready : View → Prop)
    (own : ∀ pool conn, Good pool → ready (pool.view conn) → Good (change pool conn))
    (others : ∀ pool conn other, other ≠ conn → (change pool conn).view other = pool.view other)
    (queue : List Conn) (distinct : queue.Nodup) (good : Good pool)
    (allReady : ∀ conn ∈ queue, ready (pool.view conn)) : Good (queue.foldl change pool) := by
  induction queue generalizing pool with
  | nil => exact good
  | cons conn queue ih =>
    obtain ⟨fresh, distinct⟩ := nodup_cons.mp distinct
    apply ih distinct (own pool conn good (allReady conn mem_cons_self))
    intro other member
    have apart : other ≠ conn := by
      rintro rfl
      exact fresh member
    rw [others pool conn other apart]
    exact allReady other (mem_cons_of_mem _ member)

theorem Owns.foldl {change : Pool → Conn → Pool} (ready : View → Prop)
    (own : ∀ pool conn, (pool.view conn).Owned → ready (pool.view conn) → ((change pool conn).view conn).Owned)
    (others : ∀ pool conn other, other ≠ conn → (change pool conn).view other = pool.view other)
    (queue : List Conn) (distinct : queue.Nodup) (owns : Owns pool)
    (allReady : ∀ conn ∈ queue, ready (pool.view conn)) : Owns (queue.foldl change pool) :=
  foldl_each ready (fun pool conn owns held => owns.at_conn conn (others pool conn) (own pool conn (owns conn) held))
    others queue distinct owns allReady

end

/-! ### The operations -/

variable (stream : Stream) (now : Nat)

section

variable {config : Config} {pool : Pool}
variable {conn other : Conn}

private theorem view_av_of_mem (owns : Owns pool) (member : conn ∈ pool.av) : (pool.view conn).av = 1 := by
  have total := (owns conn).total
  have positive := count_pos_iff.mpr member
  simp only [Pool.view] at total ⊢
  omega

/-- What the loop of `flb_upstream_conn_get` leaves: the connection it takes was available. -/
def Taken : Option Conn × Pool → Prop
  | (none, after) => Owns after
  | (some conn, after) => ∃ before : Pool, Owns before ∧ (before.view conn).av = 1 ∧
      after = (before.toBusy conn).update conn fun connection => { connection with netError := false }

theorem Owns.takeAvailable (owns : Owns pool) (socketFails : Conn → Bool) (queue : List Conn)
    (distinct : queue.Nodup) (available : ∀ conn ∈ queue, (pool.view conn).av = 1) :
    Taken (pool.takeAvailable config socketFails queue) := by
  induction queue generalizing pool with
  | nil => exact owns
  | cons conn queue ih =>
    obtain ⟨fresh, distinct⟩ := nodup_cons.mp distinct
    have here := available conn (by simp)
    unfold Pool.takeAvailable
    split
    · have others : ∀ other, other ≠ conn →
          ((pool.toBusy conn).prepareDestroyConn config conn).view other = pool.view other := by
        intro other apart
        simp [apart]
      have own : (((pool.toBusy conn).prepareDestroyConn config conn).view conn).Owned := by
        simpa [View.toBusy, View.prepareDestroy] using (owns conn).prepareDestroy here
      apply ih (owns.at_conn conn others own) distinct
      intro other member
      have apart : other ≠ conn := by
        rintro rfl
        exact fresh member
      rw [others other apart]
      exact available other (mem_cons_of_mem _ member)
    · exact ⟨pool, owns, here, rfl⟩

private theorem resetIoTimeout_busyFlag (net : NetSetup) (now : Nat) (connection : Connection) :
    (resetIoTimeout net now connection).busyFlag = connection.busyFlag := by
  unfold resetIoTimeout
  split <;> rfl

private theorem view_handOut_self (now : Nat) : (pool.handOut config stream conn now).view conn =
      (pool.view conn).handOut (resetIoTimeout (config.net (pool.conn conn).upstream) now) := by
  simp only [Pool.handOut, Pool.update, Pool.view, View.handOut, View.change, update_self, count_append,
    count_singleton_self, mem_append, mem_singleton, or_true, decide_true]
  rfl

private theorem view_handOut_other (pool : Pool) (apart : other ≠ conn) :
    (pool.handOut config stream conn now).view other = pool.view other := by
  simp [Pool.handOut, Pool.update, Pool.view, apart, apart.symm]
  exact ⟨rfl, rfl⟩

theorem Owns.createConn (owns : Owns pool) (stream : Stream) (now : Nat) :
    Owns (pool.createConn config stream now) := by
  obtain ⟨place, _, _, _, _, _, _, _, fresh⟩ := owns pool.next
  obtain ⟨unheld, _, unassigned, undropped⟩ := fresh (by simp [Pool.view])
  simp only [Pool.view, Nat.lt_irrefl, decide_false, Bool.toNat_false, Nat.add_eq_zero_iff, decide_eq_false_iff_not]
    at place unheld unassigned undropped
  obtain ⟨⟨⟨noAv, noBusy⟩, noDestroy⟩, noFreed⟩ := place
  intro other
  by_cases same : other = pool.next
  · subst same
    constructor <;> simp [Pool.createConn, Pool.view, unusedConnection, *]
  · have unchanged : (pool.createConn config stream now).view other = pool.view other := by
      have created : decide (other < pool.next + 1) = decide (other < pool.next) := by
        apply decide_eq_decide.mpr
        exact Nat.lt_succ_iff.trans (Nat.le_iff_lt_or_eq.trans (or_iff_left same))
      have elsewhere : [pool.next].count other = 0 := by simp [Ne.symm same]
      have connecting : decide (other ∈ pool.connecting ++ [pool.next]) = decide (other ∈ pool.connecting) := by
        simp [same]
      unfold Pool.createConn Pool.view
      simp only [update_of_ne same, count_append, elsewhere, Nat.add_zero, connecting]
      rw [created]
    rw [unchanged]
    exact owns other

theorem Owns.queueOf_av (owns : Owns pool) (stream : Stream) : (pool.queueOf config stream pool.av).Nodup ∧
      ∀ conn ∈ pool.queueOf config stream pool.av, (pool.view conn).av = 1 := by
  constructor
  · exact (owns.nodup.of_append_left.of_append_left).filter _
  · intro conn member
    exact view_av_of_mem owns (mem_filter.mp member).1

theorem Owns.reuse (owns : Owns pool) (available : (pool.view conn).av = 1) (stream : Stream) (now : Nat) :
    Owns (((pool.toBusy conn).update conn fun connection => { connection with netError := false }).handOut
      config stream conn now) := by
  apply owns.at_conn conn
  · intro other apart
    simp [view_handOut_other, apart]
  · rw [view_handOut_self, Pool.view_update_self, Pool.view_toBusy_self]
    exact (owns conn).handOut available _ _ (fun _ => rfl) (resetIoTimeout_busyFlag _ _)

theorem Owns.connGet (owns : Owns pool) (stream : Stream) (socketFails : Conn → Bool) (allocFails : Bool)
    (now : Nat) : Owns (pool.connGet config stream socketFails allocFails now) := by
  have created : ∀ after : Pool, Owns after →
      Owns (if allocFails then after else after.createConn config stream now) := by
    intro after owned
    split
    · exact owned
    · exact owned.createConn stream now
  unfold Pool.connGet
  simp only
  split
  · exact owns
  · split
    · obtain ⟨distinct, available⟩ := @Owns.queueOf_av config pool owns stream
      have taken := @Owns.takeAvailable config pool owns socketFails _ distinct available
      generalize pool.takeAvailable config socketFails (pool.queueOf config stream pool.av) = result at taken ⊢
      obtain ⟨found, after⟩ := result
      cases found with
      | none => exact created after taken
      | some conn =>
        obtain ⟨before, owned, available, rfl⟩ := taken
        exact owned.reuse available stream now
    · exact created pool owns

private theorem view_resumed_self (conn : Conn) :
    { pool with connecting := pool.connecting.filter (· ≠ conn) }.view conn =
      { pool.view conn with connecting := false } := by
  simp [Pool.view]

private theorem view_resumed_other (apart : other ≠ conn) :
    { pool with connecting := pool.connecting.filter (· ≠ conn) }.view other = pool.view other := by
  simp [Pool.view, apart]

theorem Owns.connected (owns : Owns pool) (member : conn ∈ pool.connecting) (succeeds : Bool) (now : Nat) :
    Owns (pool.connected config conn succeeds now) := by
  have connecting : (pool.view conn).connecting = true := by simpa [Pool.view] using member
  apply owns.at_conn conn
  · intro other apart
    unfold Pool.connected
    simp only
    split
    · simp only [view_handOut_other _ _ _ apart, Pool.view_update_other _ apart, view_resumed_other apart]
    · simp only [Pool.view_prepareDestroyConn_other _ apart, Pool.view_update_other _ apart, view_resumed_other apart]
  · unfold Pool.connected
    simp only
    split
    next success =>
      have busy : (pool.view conn).busy = 1 := by
        rcases (owns conn).connecting_place connecting with busy | ⟨_, failed⟩
        · exact busy
        · simp [Pool.view] at failed
          simp [failed] at success
      simp only [view_handOut_self, Pool.view_update_self, view_resumed_self, View.handOut_change]
      apply (owns conn).connected connecting busy
      intro connection
      simp [resetIoTimeout_busyFlag]
    · simp only [Pool.view_update_self, Pool.view_prepareDestroyConn_self, view_resumed_self]
      exact (owns conn).connectFailed connecting _ _ (fun _ => rfl) fun _ => rfl

private theorem view_released_self (conn : Conn) (gauge : Gauge) :
    { pool with held := pool.held.filter (· ≠ conn), busyCount := gauge }.view conn =
      { pool.view conn with held := 0 } := by
  simp [Pool.view, Pool.count_filter_ne]

private theorem view_released_other (apart : other ≠ conn) (gauge : Gauge) :
    { pool with held := pool.held.filter (· ≠ conn), busyCount := gauge }.view other = pool.view other := by
  simp [Pool.view, apart]

theorem Owns.connRelease (owns : Owns pool) (member : conn ∈ pool.held) (registerFails : Bool) (now : Nat) :
    Owns (pool.connRelease config conn registerFails now) := by
  have held : 0 < (pool.view conn).held := count_pos_iff.mpr member
  apply owns.at_conn conn
  · intro other apart
    unfold Pool.connRelease
    simp only
    split
    · split
      · simp only [Pool.view_prepareDestroyConn_other _ apart, Pool.view_update_other _ apart,
          Pool.view_toAv_other apart, view_released_other apart]
      · split
        · simp only [Pool.view_prepareDestroyConn_other _ apart, Pool.view_update_other _ apart,
            Pool.view_toAv_other apart, view_released_other apart]
        · simp only [Pool.view_update_other _ apart, Pool.view_toAv_other apart, view_released_other apart]
    · simp only [Pool.view_prepareDestroyConn_other _ apart, view_released_other apart]
  · unfold Pool.connRelease
    simp only
    split
    · split
      · simp only [Pool.view_prepareDestroyConn_self, Pool.view_update_self, Pool.view_toAv_self, view_released_self]
        exact (owns conn).releaseDropped held ⟨rfl, rfl⟩ rfl rfl rfl rfl
      · split
        · simp only [Pool.view_prepareDestroyConn_self, Pool.view_update_self, Pool.view_toAv_self,
            view_released_self]
          exact (owns conn).releaseDropped held ⟨rfl, rfl⟩ rfl rfl rfl rfl
        · simp only [Pool.view_update_self, Pool.view_toAv_self, view_released_self, View.change_change]
          exact (owns conn).releaseRecycled held _ fun _ => rfl
    · simp only [Pool.view_prepareDestroyConn_self, view_released_self]
      exact (owns conn).releaseDropped held ⟨rfl, rfl⟩ rfl rfl rfl rfl

theorem Connection.io_monitored (net : NetSetup) (waits fails recycle : Bool) (moved : Option Nat)
    (connection : Connection) :
    (connection.io net waits fails recycle moved).watch.monitored = connection.watch.monitored := by
  cases waits with
  | true => rfl
  | false =>
    change (if connection.watch.monitored then Watch.monitor else .unregistered).monitored = _
    cases connection.watch.monitored <;> rfl

theorem Owns.use (owns : Owns pool) (conn : Conn) (net : NetSetup) (waits fails recycle : Bool)
    (moved : Option Nat) : Owns (pool.update conn (.io net waits fails recycle moved)) := by
  apply owns.at_conn conn
  · intro other apart
    rw [Pool.view_update_other _ apart]
  · rw [Pool.view_update_self]
    apply (owns conn).use
    · intro _
      rfl
    · intro connection monitored
      rwa [Connection.io_monitored] at monitored
    · intro connection failed
      simp [Connection.io, failed]

theorem Owns.dispatch (owns : Owns pool) (monitored : (pool.conn conn).watch = .monitor) (free : conn ∉ pool.held) :
    Owns (pool.prepareDestroyConn config conn) := by
  apply owns.at_conn conn
  · intro other apart
    rw [Pool.view_prepareDestroyConn_other _ apart]
  · rw [Pool.view_prepareDestroyConn_self]
    rcases (owns conn).monitored (by simp [Pool.view, monitored]) with available | held
    · exact (owns conn).prepareDestroy available
    · exact absurd (count_pos_iff.mp held) free

def TimesOutSafely (config : Config) (now : Nat) (view : View) : Prop :=
  view.busy = 1 ∧ (Pool.timedOut config now view.connection = true →
    view.connection.watch = .unregistered → view.held = 0)

private theorem view_busyCount (gauge : Gauge) (conn : Conn) :
    { pool with busyCount := gauge }.view conn = pool.view conn := rfl

private theorem view_timeoutBusy_other (pool : Pool) (apart : other ≠ conn) :
    (pool.timeoutBusy config stream now conn).view other = pool.view other := by
  unfold Pool.timeoutBusy
  split
  · simp only [view_busyCount]
    split
    · rw [Pool.view_prepareDestroyConn_other _ apart, Pool.view_update_other _ apart]
    · rw [Pool.view_update_other _ apart]
  · rfl

private theorem owned_timeoutBusy (pool : Pool) (conn : Conn) (owned : (pool.view conn).Owned)
    (safe : TimesOutSafely config now (pool.view conn)) :
    ((pool.timeoutBusy config stream now conn).view conn).Owned := by
  obtain ⟨busy, free⟩ := safe
  unfold Pool.timeoutBusy
  split
  next expired =>
    simp only [view_busyCount]
    split
    next unwatched =>
      rw [Pool.view_prepareDestroyConn_self, Pool.view_update_self]
      apply View.prepareDestroy_owned
      · exact owned.alive (by omega)
      · exact free expired unwatched
      · exact owned.flag
      · intro connecting
        exact ⟨rfl, owned.apart connecting⟩
      · intro _
        exact owned.kept (by omega)
    · rw [Pool.view_update_self]
      apply owned.use
      · intro _
        rfl
      · intro _ monitor
        exact monitor
      · intro _ _
        rfl
  · exact owned

theorem view_timeoutIdle_other (pool : Pool) (apart : other ≠ conn) :
    (pool.timeoutIdle config stream now conn).view other = pool.view other := by
  unfold Pool.timeoutIdle
  split
  · rw [Pool.view_prepareDestroyConn_other _ apart]
  · rfl

private theorem owned_timeoutIdle (pool : Pool) (conn : Conn) (owned : (pool.view conn).Owned)
    (available : (pool.view conn).av = 1) : ((pool.timeoutIdle config stream now conn).view conn).Owned := by
  unfold Pool.timeoutIdle
  split
  · rw [Pool.view_prepareDestroyConn_self]
    exact owned.prepareDestroy available
  · exact owned

theorem Owns.connTimeouts (owns : Owns pool) (stream : Stream) (now : Nat)
    (watched : ∀ conn ∈ pool.queueOf config stream pool.held,
      Pool.timedOut config now (pool.conn conn) = true → (pool.conn conn).watch ≠ .unregistered) :
    Owns (pool.connTimeouts config stream now) := by
  have swept : Owns ((pool.queueOf config stream pool.busy).foldl (Pool.timeoutBusy config stream now) pool) := by
    apply owns.foldl (TimesOutSafely config now)
    · exact owned_timeoutBusy stream now
    · intro pool conn other apart
      exact view_timeoutBusy_other stream now pool apart
    · exact (owns.nodup.of_append_left.of_append_right).filter _
    · intro conn member
      obtain ⟨busy, served⟩ := mem_filter.mp member
      have total := (owns conn).total
      have positive := count_pos_iff.mpr busy
      simp only [Pool.view] at total
      refine ⟨by simp only [Pool.view]; omega, ?_⟩
      intro expired unwatched
      by_contra held
      have holder : conn ∈ pool.held := count_pos_iff.mp (Nat.pos_of_ne_zero held)
      exact watched conn (mem_filter.mpr ⟨holder, served⟩) expired unwatched
  obtain ⟨distinct, available⟩ := @Owns.queueOf_av config _ swept stream
  apply swept.foldl (fun view => view.av = 1)
  · exact owned_timeoutIdle stream now
  · intro pool conn other apart
    exact view_timeoutIdle_other stream now pool apart
  · exact distinct
  · exact available

theorem view_destroyConn_other (pool : Pool) (apart : other ≠ conn) :
    (pool.destroyConn conn).view other = pool.view other := by
  unfold Pool.destroyConn
  split
  · rfl
  · simp [Pool.unlink, Pool.view, apart, apart.symm]

theorem owned_destroyConn (pool : Pool) (conn : Conn) (owned : (pool.view conn).Owned)
    (destroyed : (pool.view conn).destroy = 1) : ((pool.destroyConn conn).view conn).Owned := by
  unfold Pool.destroyConn
  split
  · exact owned
  next idle =>
    have total := owned.total
    obtain ⟨created, unfreed⟩ := owned.alive (by omega)
    have free : (pool.view conn).held = 0 := by
      by_contra held
      have busy := (owned.held_busy (by omega)).2.1
      omega
    have view : { pool.unlink conn with freed := pool.freed ++ [conn] }.view conn =
        { pool.view conn with av := 0, busy := 0, destroy := 0, freed := (pool.view conn).freed + 1 } := by
      simp [Pool.unlink, Pool.view, Pool.count_filter_ne]
    have flag := owned.flag
    have notBusy : (pool.view conn).connection.busyFlag = false := by simpa [Pool.view] using idle
    have unmonitored := owned.monitored
    have once := owned.once
    rw [view]
    constructor <;> simp_all

theorem Owns.connPendingDestroy (owns : Owns pool) (stream : Stream) :
    Owns (pool.connPendingDestroy config stream) := by
  apply owns.foldl (fun view => view.destroy = 1)
  · exact owned_destroyConn
  · intro pool conn other apart
    exact view_destroyConn_other pool apart
  · exact owns.nodup.of_append_right.filter _
  · intro conn member
    have total := (owns conn).total
    have positive := count_pos_iff.mpr (mem_filter.mp member).1
    simp only [Pool.view] at total ⊢
    omega

def Undisturbed (config : Config) (pool : Pool) : Event → Prop
  | .dispatch conn => conn ∉ pool.held
  | .connTimeouts stream now => ∀ conn ∈ pool.queueOf config stream pool.held,
      Pool.timedOut config now (pool.conn conn) = true → (pool.conn conn).watch ≠ .unregistered
  | _ => True

/-- Each event leaves a connection in one queue. -/
theorem Owns.step (owns : Owns pool) (event : Event) (undisturbed : Undisturbed config pool event) :
    Owns (step config event pool) := by
  unfold Upstream.step
  cases event with
  | connGet stream socketFails allocFails now => exact owns.connGet stream socketFails allocFails now
  | connected conn succeeds now =>
    simp only
    split
    next member => exact owns.connected member succeeds now
    · exact owns
  | use conn waits fails recycle moved =>
    simp only
    split
    · exact owns.use conn _ waits fails recycle moved
    · exact owns
  | connRelease conn registerFails now =>
    simp only
    split
    next member => exact owns.connRelease member registerFails now
    · exact owns
  | dispatch conn =>
    simp only
    split
    next monitored => exact owns.dispatch monitored undisturbed
    · exact owns
  | connTimeouts stream now => exact owns.connTimeouts stream now undisturbed
  | connPendingDestroy stream => exact owns.connPendingDestroy stream

/-- One queue for each connection that was not freed; one holder for each that was handed
out, who keeps it until the release. -/
structure Pooled (pool : Pool) : Prop where
  one : ∀ conn, conn < pool.next → conn ∉ pool.freed → (pool.av ++ pool.busy ++ pool.destroy).count conn = 1
  single : pool.held.Nodup
  kept : ∀ conn ∈ pool.held, conn ∈ pool.busy ∧ conn ∉ pool.dropped ∧ conn ∉ pool.freed
  once : ∀ conn ∈ pool.assigned, pool.dropped.count conn ≤ 1

theorem Owns.pooled (owns : Owns pool) : Pooled pool := by
  constructor
  · intro conn created unfreed
    have place := (owns conn).place
    have none := count_eq_zero.mpr unfreed
    simp only [Pool.view, created, decide_true, Bool.toNat_true] at place
    simp only [count_append]
    omega
  · apply nodup_iff_count_le_one.mpr
    intro conn
    by_cases held : 0 < (pool.view conn).held
    · exact Nat.le_of_eq ((owns conn).held_busy held).1
    · simp only [Pool.view] at held
      omega
  · intro conn member
    have held : 0 < (pool.view conn).held := count_pos_iff.mpr member
    obtain ⟨_, unfreed, _, _, busy, _, undropped⟩ := (owns conn).of_held held
    simp only [Pool.view] at unfreed busy undropped
    exact ⟨count_pos_iff.mp (by omega), count_eq_zero.mp undropped, count_eq_zero.mp unfreed⟩
  · intro conn member
    have once := (owns conn).once
    simp only [Pool.view, member, decide_true, true_implies] at once
    exact once

/-- In every undisturbed run, connections have one place and one holder. -/
theorem pooled_of_undisturbed (path : Runs.Path (step config) (Undisturbed config) .initial pool) : Pooled pool := by
  have owns : Owns pool := path.invariant Owns owns_initial fun _ event owns undisturbed =>
    owns.step event undisturbed
  exact owns.pooled

end

def oneUpstream : Config :=
  { net := fun _ => {
      keepalive := true, keepaliveFlag := true, keepaliveIdleTimeout := 30, keepaliveMaxRecycle := 2000
      connectTimeout := 10, ioTimeout := 5, maxWorkerConnections := 0 }
    parent := fun _ => none
    queueOf := id
    totalGauge := fun _ => true
    busyGauge := fun _ => true
    parentBelow := by simp
    queueChild := by simp }

def reuse : List Event :=
  [.connGet 0 (fun _ => false) false 1, .connected 0 true 1, .use 0 true false true none, .connTimeouts 0 5,
    .connRelease 0 false 6, .connPendingDestroy 0, .connGet 0 (fun _ => false) false 9]

theorem pooled_of_undisturbed_reuse : Pooled (Runs.after (step oneUpstream) .initial reuse) ∧
      (Runs.after (step oneUpstream) .initial reuse).held = [0] := by
  have watched : ∀ conn ∈ (Runs.after (step oneUpstream) .initial (reuse.take 3)).queueOf oneUpstream 0
      (Runs.after (step oneUpstream) .initial (reuse.take 3)).held,
        Pool.timedOut oneUpstream 5 ((Runs.after (step oneUpstream) .initial (reuse.take 3)).conn conn) = true →
          ((Runs.after (step oneUpstream) .initial (reuse.take 3)).conn conn).watch ≠ .unregistered := by
    decide +kernel
  have undisturbed : Runs.Admits (step oneUpstream) (Undisturbed oneUpstream) .initial reuse :=
    ⟨trivial, trivial, trivial, watched, trivial, trivial, trivial, trivial⟩
  exact ⟨pooled_of_undisturbed (Runs.path_after reuse undisturbed), by decide +kernel⟩

def droppedUnderHolder : List Event :=
  [.connGet 0 (fun _ => false) false 1, .connected 0 true 1, .connTimeouts 0 7, .connPendingDestroy 0]

/-- The connection is freed while it is held. -/
theorem droppedUnderHolder_frees_held : 0 ∈ (Runs.after (step oneUpstream) .initial droppedUnderHolder).held ∧
      0 ∈ (Runs.after (step oneUpstream) .initial droppedUnderHolder).freed ∧
      ¬ Pooled (Runs.after (step oneUpstream) .initial droppedUnderHolder) := by
  have held : 0 ∈ (Runs.after (step oneUpstream) .initial droppedUnderHolder).held := by decide +kernel
  have freed : 0 ∈ (Runs.after (step oneUpstream) .initial droppedUnderHolder).freed := by decide +kernel
  exact ⟨held, freed, fun pooled => (pooled.kept 0 held).2.2 freed⟩

end FluentBit.Upstream
