import FluentBit.Upstream.PoolProperties
import Mathlib.Tactic.Ring

/-! The gauges of an upstream against the queues. The total gauge of a root follows
its available and busy connections and the busy gauge follows its holders, as
long as connections are asked for at the root and none of them times out. -/

set_option autoImplicit false

namespace FluentBit.Upstream

open List

variable {config : Config}

def root (config : Config) (stream : Stream) : Stream :=
  match _found : config.parent stream with
  | some above => root config above
  | none => stream
termination_by stream
decreasing_by exact config.parentBelow _ _ ‹_›

private theorem root_of_parent {stream above : Stream} (parent : config.parent stream = some above) :
    root config stream = root config above := by
  rw [root]
  split
  next other found =>
    obtain rfl : above = other := Option.some.inj (parent.symm.trans found)
    rfl
  next none => simp [parent] at none

variable {stream : Stream}

private theorem root_of_none (parent : config.parent stream = none) : root config stream = stream := by
  rw [root]
  split
  next other found => simp [parent] at found
  · rfl

private theorem root_queueOf : root config (config.queueOf stream) = root config stream := by
  rcases config.queueChild stream with same | child
  · rw [same]
  · exact root_of_parent child

private theorem changeAtRoot_eq (present : Stream → Bool) (amount : Int) (stream : Stream) (gauge : Gauge) :
    changeAtRoot config present amount stream gauge = bump present (root config stream) amount gauge := by
  induction stream using root.induct config with
  | case1 stream above parent ih =>
    rw [root_of_parent parent, ← ih, changeAtRoot]
    split
    next other found =>
      obtain rfl : above = other := Option.some.inj (parent.symm.trans found)
      rfl
    next none => simp [parent] at none
  | case2 stream parent =>
    rw [root_of_none parent, changeAtRoot]
    split
    next other found => simp [parent] at found
    · rfl

private theorem incrementTotal_root (parent : config.parent stream = none) (gauge : Gauge) :
    incrementTotal config stream gauge = bump config.totalGauge stream 1 gauge := by
  rw [incrementTotal]
  split
  next other found => simp [parent] at found
  · rfl

private theorem bump_apply (present : Stream → Bool) (amount : Int) (gauge : Gauge) (other : Stream)
    (there : present other = true) :
    bump present stream amount gauge other = gauge other + if stream = other then amount else 0 := by
  unfold bump
  split
  · by_cases same : stream = other
    · subst same
      simp
    · simp [same, Ne.symm same]
  next absent =>
    have different : stream ≠ other := by
      rintro rfl
      exact absent there
    simp [different]

/-! ### The total gauge -/

def serves (config : Config) (pool : Pool) (top : Stream) (conn : Conn) : Bool :=
  decide (root config (pool.conn conn).upstream = top)

def Pool.active (pool : Pool) : List Conn := pool.av ++ pool.busy

def TotalMetered (config : Config) (pool : Pool) : Prop :=
  ∀ top, config.totalGauge top = true → config.parent top = none →
    pool.total top = (pool.active.countP (serves config pool top) : Int)

section

variable {pool after : Pool} {conn : Conn}

def SameUpstreams (before after : Pool) : Prop :=
  ∀ conn, (after.conn conn).upstream = (before.conn conn).upstream

private theorem serves_congr (same : SameUpstreams pool after) (top : Stream) :
    serves config after top = serves config pool top := by
  funext conn
  simp [serves, same conn]

private theorem sameUpstreams_update (how : Connection → Connection)
    (fixed : ∀ connection, (how connection).upstream = connection.upstream) :
    SameUpstreams pool (pool.update conn how) := by
  intro other
  by_cases same : other = conn
  · subst same
    simp [Pool.update, fixed]
  · simp [Pool.update, same]

private theorem sameUpstreams_prepareDestroyConn : SameUpstreams pool (pool.prepareDestroyConn config conn) :=
  @sameUpstreams_update pool conn
    (fun connection => { connection with watch := .unregistered, fdOpen := false }) fun _ => rfl

theorem TotalMetered.congr (metered : TotalMetered config pool) (same : SameUpstreams pool after)
    (active : after.active.Perm pool.active) (total : after.total = pool.total) : TotalMetered config after := by
  intro top present parent
  rw [total, metered top present parent, serves_congr same, active.countP_eq]

variable {queue : List Conn} {now : Nat}

theorem perm_cons_filter (distinct : queue.Nodup) (member : conn ∈ queue) :
    queue.Perm (conn :: queue.filter (· ≠ conn)) := by
  have erased := perm_cons_erase member
  rw [distinct.erase_eq_filter] at erased
  simpa [bne, Bool.beq_eq_decide_eq] using erased

private theorem active_toAv (distinct : pool.active.Nodup) (member : conn ∈ pool.active) :
    (pool.toAv conn).active.Perm pool.active := by
  apply List.Perm.trans _ (perm_cons_filter distinct member).symm
  simp only [Pool.active, Pool.toAv, Pool.unlink, filter_append, append_assoc]
  exact perm_middle

private theorem active_toBusy (distinct : pool.active.Nodup) (member : conn ∈ pool.active) :
    (pool.toBusy conn).active.Perm pool.active := by
  apply List.Perm.trans _ (perm_cons_filter distinct member).symm
  simp only [Pool.active, Pool.toBusy, Pool.unlink, filter_append, ← append_assoc]
  exact perm_append_singleton _ _

theorem TotalMetered.update (metered : TotalMetered config pool) (how : Connection → Connection)
    (fixed : ∀ connection, (how connection).upstream = connection.upstream) :
    TotalMetered config (pool.update conn how) :=
  metered.congr (sameUpstreams_update how fixed) (List.Perm.refl _) rfl

theorem TotalMetered.prepareDestroyConn (metered : TotalMetered config pool) (distinct : pool.active.Nodup)
    (member : conn ∈ pool.active) : TotalMetered config (pool.prepareDestroyConn config conn) := by
  intro top present parent
  have before := metered top present parent
  have same := @sameUpstreams_prepareDestroyConn config pool conn
  have active : (pool.prepareDestroyConn config conn).active = pool.active.filter (· ≠ conn) := by
    simp [Pool.prepareDestroyConn, Pool.active, Pool.toDestroy, Pool.unlink, Pool.update]
  have total : (pool.prepareDestroyConn config conn).total =
      bump config.totalGauge (root config (pool.conn conn).upstream) (-1) pool.total :=
    changeAtRoot_eq _ _ _ _
  rw [(perm_cons_filter distinct member).countP_eq, countP_cons] at before
  rw [total, bump_apply _ _ _ _ present, serves_congr same, active, before]
  simp only [serves, decide_eq_true_eq]
  split <;> push_cast <;> ring

/-! ### The busy gauge -/

def BusyMetered (config : Config) (pool : Pool) : Prop :=
  ∀ top, config.busyGauge top = true → config.parent top = none →
    pool.busyCount top = (pool.held.countP (serves config pool top) : Int)

theorem BusyMetered.congr (metered : BusyMetered config pool) (same : SameUpstreams pool after)
    (held : after.held = pool.held) (busy : after.busyCount = pool.busyCount) : BusyMetered config after := by
  intro top present parent
  rw [busy, metered top present parent, serves_congr same, held]

theorem BusyMetered.update (metered : BusyMetered config pool) (how : Connection → Connection)
    (fixed : ∀ connection, (how connection).upstream = connection.upstream) :
    BusyMetered config (pool.update conn how) :=
  metered.congr (sameUpstreams_update how fixed) rfl rfl

structure Gauged (config : Config) (pool : Pool) : Prop where
  connecting : ∀ conn ∈ pool.connecting, conn ∈ pool.busy
  total : TotalMetered config pool
  busy : BusyMetered config pool

structure Metered (config : Config) (pool : Pool) : Prop extends Gauged config pool where
  owns : Owns pool

theorem Owns.nodup_active (owns : Owns pool) : pool.active.Nodup := owns.nodup.of_append_left

private theorem metered_initial : Metered config .initial := by
  refine ⟨⟨by simp [Pool.initial], ?_, ?_⟩, owns_initial⟩
  · intro top _ _
    simp [Pool.initial, Pool.active]
  · intro top _ _
    simp [Pool.initial]

section

variable (gauged : Gauged config pool)
include gauged

theorem Gauged.update (conn : Conn) (how : Connection → Connection)
    (fixed : ∀ connection, (how connection).upstream = connection.upstream) : Gauged config (pool.update conn how) :=
  ⟨gauged.connecting, gauged.total.update how fixed, gauged.busy.update how fixed⟩

theorem Gauged.mem_busy_filter (idle : conn ∉ pool.connecting) :
    ∀ other ∈ pool.connecting, other ∈ pool.busy.filter (· ≠ conn) := by
  intro other connecting
  have different : other ≠ conn := by
    rintro rfl
    exact idle connecting
  exact mem_filter.mpr ⟨gauged.connecting other connecting, by simpa using different⟩

theorem Gauged.prepareDestroyConn (distinct : pool.active.Nodup) (member : conn ∈ pool.active)
    (idle : conn ∉ pool.connecting) : Gauged config (pool.prepareDestroyConn config conn) :=
  ⟨gauged.mem_busy_filter idle, gauged.total.prepareDestroyConn distinct member,
    gauged.busy.congr sameUpstreams_prepareDestroyConn rfl rfl⟩

theorem Gauged.toAv (distinct : pool.active.Nodup) (member : conn ∈ pool.active) (idle : conn ∉ pool.connecting) :
    Gauged config (pool.toAv conn) :=
  ⟨gauged.mem_busy_filter idle, gauged.total.congr (fun _ => rfl) (active_toAv distinct member) rfl,
    gauged.busy.congr (fun _ => rfl) rfl rfl⟩

theorem Gauged.toBusy (distinct : pool.active.Nodup) (member : conn ∈ pool.active) (idle : conn ∉ pool.connecting) :
    Gauged config (pool.toBusy conn) :=
  ⟨fun other connecting => mem_append_left _ (gauged.mem_busy_filter idle other connecting),
    gauged.total.congr (fun _ => rfl) (active_toBusy distinct member) rfl, gauged.busy.congr (fun _ => rfl) rfl rfl⟩

end

private theorem resetIoTimeout_upstream (net : NetSetup) (connection : Connection) :
    (resetIoTimeout net now connection).upstream = connection.upstream := by
  unfold resetIoTimeout
  split <;> rfl

theorem BusyMetered.handOut (metered : BusyMetered config pool) (now : Nat)
    (top : root config stream = root config (pool.conn conn).upstream) :
    BusyMetered config (pool.handOut config stream conn now) := by
  intro top' present parent
  have same : SameUpstreams pool (pool.handOut config stream conn now) :=
    @sameUpstreams_update pool conn (resetIoTimeout (config.net (pool.conn conn).upstream) now)
      (resetIoTimeout_upstream _)
  have gauge : (pool.handOut config stream conn now).busyCount =
      bump config.busyGauge (root config stream) 1 pool.busyCount := changeAtRoot_eq _ _ _ _
  have held : (pool.handOut config stream conn now).held = pool.held ++ [conn] := rfl
  rw [gauge, bump_apply _ _ _ _ present, metered top' present parent, serves_congr same, held, top]
  simp only [serves, countP_append, countP_singleton, decide_eq_true_eq]
  split <;> push_cast <;> ring

theorem BusyMetered.released (metered : BusyMetered config pool) (distinct : pool.held.Nodup)
    (member : conn ∈ pool.held) :
    BusyMetered config { pool with
      held := pool.held.filter (· ≠ conn)
      busyCount := decrementBusy config (pool.conn conn).upstream pool.busyCount } := by
  intro top present parent
  have before := metered top present parent
  rw [(perm_cons_filter distinct member).countP_eq, countP_cons] at before
  change decrementBusy config (pool.conn conn).upstream pool.busyCount top =
    ((pool.held.filter (· ≠ conn)).countP (serves config pool top) : Int)
  rw [decrementBusy, changeAtRoot_eq, bump_apply _ _ _ _ present, before]
  simp only [serves, decide_eq_true_eq]
  split <;> push_cast <;> ring

theorem TotalMetered.handOut (metered : TotalMetered config pool) (stream : Stream) (now : Nat) :
    TotalMetered config (pool.handOut config stream conn now) := by
  apply metered.congr
  · exact @sameUpstreams_update pool conn (resetIoTimeout (config.net (pool.conn conn).upstream) now)
      (resetIoTimeout_upstream _)
  · exact List.Perm.refl _
  · rfl

theorem Gauged.handOut (gauged : Gauged config pool) (now : Nat)
    (top : root config stream = root config (pool.conn conn).upstream) :
    Gauged config (pool.handOut config stream conn now) :=
  ⟨gauged.connecting, gauged.total.handOut stream now, gauged.busy.handOut now top⟩

theorem Gauged.released (gauged : Gauged config pool) (distinct : pool.held.Nodup) (member : conn ∈ pool.held) :
    Gauged config { pool with
      held := pool.held.filter (· ≠ conn)
      busyCount := decrementBusy config (pool.conn conn).upstream pool.busyCount } :=
  ⟨gauged.connecting, gauged.total.congr (fun _ => rfl) (List.Perm.refl _) rfl, gauged.busy.released distinct member⟩

theorem Gauged.resumed (gauged : Gauged config pool) :
    Gauged config { pool with connecting := pool.connecting.filter (· ≠ conn) } :=
  ⟨fun other member => gauged.connecting other (mem_filter.mp member).1,
    gauged.total.congr (fun _ => rfl) (List.Perm.refl _) rfl, gauged.busy.congr (fun _ => rfl) rfl rfl⟩

/-! ### The operations -/

private theorem prepareDestroyConn_toBusy :
    (pool.toBusy conn).prepareDestroyConn config conn = pool.prepareDestroyConn config conn := by
  simp [Pool.prepareDestroyConn, Pool.toBusy, Pool.toDestroy, Pool.unlink, Pool.update]

private theorem mem_active_of_av (available : (pool.view conn).av = 1) : conn ∈ pool.active := by
  apply mem_append_left
  apply count_pos_iff.mp
  simp only [Pool.view] at available
  omega

theorem Metered.dropAvailable (metered : Metered config pool) (available : (pool.view conn).av = 1) :
    Metered config (pool.prepareDestroyConn config conn) := by
  have idle : conn ∉ pool.connecting := by
    simpa [Pool.view] using ((metered.owns conn).unused available).2.1
  constructor
  · exact metered.toGauged.prepareDestroyConn metered.owns.nodup_active (mem_active_of_av available) idle
  · apply metered.owns.at_conn conn
    · intro other apart
      rw [Pool.view_prepareDestroyConn_other _ apart]
    · rw [Pool.view_prepareDestroyConn_self]
      exact (metered.owns conn).prepareDestroy available

def MeteredTaken (config : Config) (stream : Stream) : Option Conn × Pool → Prop
  | (none, after) => Metered config after
  | (some conn, after) => ∃ before : Pool, Metered config before ∧ (before.view conn).av = 1 ∧
      root config (before.conn conn).upstream = root config stream ∧
      after = (before.toBusy conn).update conn fun connection => { connection with netError := false }

theorem Metered.takeAvailable (metered : Metered config pool) (stream : Stream) (socketFails : Conn → Bool)
    (queue : List Conn) (distinct : queue.Nodup) (available : ∀ conn ∈ queue, (pool.view conn).av = 1)
    (served : ∀ conn ∈ queue, root config (pool.conn conn).upstream = root config stream) :
    MeteredTaken config stream (pool.takeAvailable config socketFails queue) := by
  induction queue generalizing pool with
  | nil => exact metered
  | cons conn queue ih =>
    obtain ⟨fresh, distinct⟩ := nodup_cons.mp distinct
    have here := available conn (by simp)
    unfold Pool.takeAvailable
    split
    · rw [prepareDestroyConn_toBusy]
      apply ih (metered.dropAvailable here) distinct
      · intro other member
        have apart : other ≠ conn := by
          rintro rfl
          exact fresh member
        rw [Pool.view_prepareDestroyConn_other _ apart]
        exact available other (mem_cons_of_mem _ member)
      · intro other member
        rw [sameUpstreams_prepareDestroyConn other]
        exact served other (mem_cons_of_mem _ member)
    · exact ⟨pool, metered, here, served conn (by simp), rfl⟩

theorem Owns.active_ne_next (owns : Owns pool) (member : conn ∈ pool.active) : conn ≠ pool.next := by
  have positive := count_pos_iff.mpr member
  simp only [Pool.active, count_append] at positive
  have created := ((owns conn).alive (by simp only [Pool.view]; omega)).1
  simp only [Pool.view, decide_eq_true_eq] at created
  exact Nat.ne_of_lt created

theorem Owns.held_active (owns : Owns pool) (member : conn ∈ pool.held) : conn ∈ pool.active :=
  mem_append_right _ (owns.pooled.kept conn member).1

theorem Metered.createConn (metered : Metered config pool) (parent : config.parent stream = none) (now : Nat) :
    Metered config (pool.createConn config stream now) := by
  have unchanged : ∀ top, ∀ conn, conn ≠ pool.next →
      serves config (pool.createConn config stream now) top conn = serves config pool top conn := by
    intro top conn different
    simp [serves, Pool.createConn, different]
  have created : ∀ top, serves config (pool.createConn config stream now) top pool.next = decide (stream = top) := by
    intro top
    simp [serves, Pool.createConn, root_of_none parent]
  refine ⟨⟨?_, ?_, ?_⟩, metered.owns.createConn stream now⟩
  · intro conn member
    rcases mem_append.mp member with earlier | created
    · exact mem_append_left _ (metered.connecting conn earlier)
    · exact mem_append_right _ created
  · intro top present topParent
    have active : (pool.createConn config stream now).active = pool.active ++ [pool.next] := by
      simp [Pool.createConn, Pool.active]
    have gauge : (pool.createConn config stream now).total = bump config.totalGauge stream 1 pool.total :=
      incrementTotal_root parent _
    have same : pool.active.countP (serves config (pool.createConn config stream now) top) =
        pool.active.countP (serves config pool top) := by
      apply countP_congr
      intro conn member
      rw [unchanged top conn (metered.owns.active_ne_next member)]
    rw [gauge, bump_apply _ _ _ _ present, metered.total top present topParent, active, countP_append,
      same, countP_singleton, created]
    simp only [decide_eq_true_eq]
    split <;> push_cast <;> ring
  · intro top present topParent
    have same : pool.held.countP (serves config (pool.createConn config stream now) top) =
        pool.held.countP (serves config pool top) := by
      apply countP_congr
      intro conn member
      rw [unchanged top conn (metered.owns.active_ne_next (metered.owns.held_active member))]
    exact (metered.busy top present topParent).trans (congrArg _ same.symm)

theorem Metered.reuse (metered : Metered config pool) (available : (pool.view conn).av = 1)
    (top : root config (pool.conn conn).upstream = root config stream) (now : Nat) :
    Metered config (((pool.toBusy conn).update conn fun connection => { connection with netError := false }).handOut
      config stream conn now) := by
  refine ⟨?_, metered.owns.reuse available stream now⟩
  have idle : conn ∉ pool.connecting := by
    simpa [Pool.view] using ((metered.owns conn).unused available).2.1
  have busy := metered.toGauged.toBusy metered.owns.nodup_active (mem_active_of_av available) idle
  apply Gauged.handOut
  · exact busy.update conn _ fun _ => rfl
  · simp [Pool.update, Pool.toBusy, Pool.unlink, top]

def Opens (config : Config) (pool : Pool) (stream : Stream) (socketFails : Conn → Bool) (allocFails : Bool) : Prop :=
  ¬ (0 < (config.net stream).maxWorkerConnections ∧
    (config.net stream).maxWorkerConnections ≤ (pool.queueOf config stream pool.busy).length) ∧
    ((config.net stream).keepalive = true →
      ∀ conn ∈ pool.queueOf config stream pool.av, socketFails conn = true) ∧
    allocFails = false

private theorem fails_of_takeAvailable_none {socketFails : Conn → Bool} {queue : List Conn}
    (none : (pool.takeAvailable config socketFails queue).1 = none) : ∀ conn ∈ queue, socketFails conn = true := by
  induction queue generalizing pool with
  | nil => simp
  | cons conn queue ih =>
    unfold Pool.takeAvailable at none
    split at none
    next fails =>
      intro other member
      rcases mem_cons.mp member with rfl | later
      · exact fails
      · exact ih none other later
    · cases none

theorem Metered.connGet (metered : Metered config pool) {socketFails : Conn → Bool} {allocFails : Bool} (now : Nat)
    (parent : Opens config pool stream socketFails allocFails → config.parent stream = none) :
    Metered config (pool.connGet config stream socketFails allocFails now) := by
  unfold Pool.connGet
  simp only
  split
  · exact metered
  next unlimited =>
    have created : ∀ after : Pool, Metered config after → ((config.net stream).keepalive = true →
          ∀ conn ∈ pool.queueOf config stream pool.av, socketFails conn = true) →
        Metered config (if allocFails then after else after.createConn config stream now) := by
      intro after metered failed
      split
      · exact metered
      next allocated => exact metered.createConn (parent ⟨unlimited, failed, by simpa using allocated⟩) now
    split
    · obtain ⟨distinct, available⟩ := @Owns.queueOf_av config pool metered.owns stream
      have served : ∀ conn ∈ pool.queueOf config stream pool.av,
          root config (pool.conn conn).upstream = root config stream := by
        intro conn member
        have queue : config.queueOf (pool.conn conn).upstream = config.queueOf stream := by
          simpa using (mem_filter.mp member).2
        rw [← root_queueOf, queue, root_queueOf]
      have taken := metered.takeAvailable stream socketFails _ distinct available served
      have failed := @fails_of_takeAvailable_none config pool socketFails (pool.queueOf config stream pool.av)
      generalize pool.takeAvailable config socketFails (pool.queueOf config stream pool.av) = result at taken failed ⊢
      obtain ⟨found, after⟩ := result
      cases found with
      | none => exact created after taken fun _ => failed rfl
      | some conn =>
        obtain ⟨before, metered, available, top, rfl⟩ := taken
        exact metered.reuse available top now
    next closed => exact created pool metered fun keepalive => absurd keepalive closed

theorem Metered.connected (metered : Metered config pool) (member : conn ∈ pool.connecting) (succeeds : Bool)
    (now : Nat) : Metered config (pool.connected config conn succeeds now) := by
  refine ⟨?_, metered.owns.connected member succeeds now⟩
  have resumed := @Gauged.resumed config pool conn metered.toGauged
  unfold Pool.connected
  simp only
  split
  · apply Gauged.handOut
    · apply Gauged.update
      · exact resumed.update conn _ fun _ => rfl
      · intro _
        rfl
    · simp [Pool.update]
  · apply Gauged.update
    · apply Gauged.prepareDestroyConn
      · exact resumed.update conn _ fun _ => rfl
      · exact metered.owns.nodup_active
      · exact mem_append_right _ (metered.connecting conn member)
      · simp [Pool.update]
    · intro _
      rfl

theorem Metered.connRelease (metered : Metered config pool) (member : conn ∈ pool.held) (registerFails : Bool)
    (now : Nat) : Metered config (pool.connRelease config conn registerFails now) := by
  refine ⟨?_, metered.owns.connRelease member registerFails now⟩
  have released := metered.toGauged.released metered.owns.pooled.single member
  have distinct := metered.owns.nodup_active
  have active := metered.owns.held_active member
  have idle : conn ∉ pool.connecting := by
    have held : 0 < (pool.view conn).held := count_pos_iff.mpr member
    simpa [Pool.view] using ((metered.owns conn).of_held held).2.2.2.2.2.1
  unfold Pool.connRelease
  simp only
  split
  · have available := released.toAv distinct active idle
    have moved := @active_toAv _ conn distinct active
    split
    · apply Gauged.prepareDestroyConn
      · exact available.update conn _ fun _ => rfl
      · exact moved.nodup_iff.mpr distinct
      · exact moved.mem_iff.mpr active
      · exact idle
    · have stamped := available.update conn (fun connection => { connection with available := now }) fun _ => rfl
      have monitored := stamped.update conn
        (fun connection => { connection with watch := .monitor, kaCount := connection.kaCount + 1 }) fun _ => rfl
      split
      · apply monitored.prepareDestroyConn
        · exact moved.nodup_iff.mpr distinct
        · exact moved.mem_iff.mpr active
        · exact idle
      · exact monitored
  · exact released.prepareDestroyConn distinct active idle

private theorem foldl_timeoutBusy_eq (inTime : ∀ conn ∈ queue, Pool.timedOut config now (pool.conn conn) = false) :
    queue.foldl (Pool.timeoutBusy config stream now) pool = pool := by
  induction queue with
  | nil => rfl
  | cons conn queue ih =>
    have here : pool.timeoutBusy config stream now conn = pool := by
      unfold Pool.timeoutBusy
      simp [inTime conn]
    rw [foldl_cons, here]
    exact ih fun other member => inTime other (mem_cons_of_mem _ member)

theorem Metered.connTimeouts (metered : Metered config pool)
    (inTime : ∀ conn ∈ pool.queueOf config stream pool.busy, Pool.timedOut config now (pool.conn conn) = false) :
    Metered config (pool.connTimeouts config stream now) := by
  unfold Pool.connTimeouts
  simp only
  rw [foldl_timeoutBusy_eq inTime]
  obtain ⟨distinct, available⟩ := @Owns.queueOf_av config _ metered.owns stream
  apply foldl_each (fun view => view.av = 1)
  · intro pool conn metered available
    unfold Pool.timeoutIdle
    split
    · exact metered.dropAvailable available
    · exact metered
  · intro pool conn other apart
    exact view_timeoutIdle_other stream now pool apart
  · exact distinct
  · exact metered
  · exact available

theorem Metered.destroyConn (metered : Metered config pool) (destroyed : (pool.view conn).destroy = 1) :
    Metered config (pool.destroyConn conn) := by
  have owns : Owns (pool.destroyConn conn) :=
    metered.owns.at_conn conn (fun _ apart => view_destroyConn_other pool apart)
      (owned_destroyConn pool conn (metered.owns conn) destroyed)
  refine ⟨?_, owns⟩
  have total := (metered.owns conn).total
  simp only [Pool.view] at total destroyed
  have unavailable : conn ∉ pool.av := count_eq_zero.mp (by omega)
  have unbusy : conn ∉ pool.busy := count_eq_zero.mp (by omega)
  have same : ∀ queue : List Conn, conn ∉ queue → queue.filter (· ≠ conn) = queue := by
    intro queue absent
    apply filter_eq_self.mpr
    intro other member
    have different : other ≠ conn := by
      rintro rfl
      exact absent member
    simpa using different
  unfold Pool.destroyConn Pool.unlink
  split
  · exact metered.toGauged
  · rw [same _ unavailable, same _ unbusy]
    exact ⟨metered.connecting, metered.total.congr (fun _ => rfl) (List.Perm.refl _) rfl,
      metered.busy.congr (fun _ => rfl) rfl rfl⟩

theorem Metered.connPendingDestroy (metered : Metered config pool) (stream : Stream) :
    Metered config (pool.connPendingDestroy config stream) := by
  apply foldl_each (fun view => view.destroy = 1)
  · intro pool conn metered destroyed
    exact metered.destroyConn destroyed
  · intro pool conn other apart
    exact view_destroyConn_other pool apart
  · exact metered.owns.nodup.of_append_right.filter _
  · exact metered
  · intro conn member
    have total := (metered.owns conn).total
    have positive := count_pos_iff.mpr (mem_filter.mp member).1
    simp only [Pool.view] at total ⊢
    omega

/-- Connections are opened at a root, none is timed out in a pass, and no disconnect
reaches a connection that is in use. -/
def Quiet (config : Config) (pool : Pool) : Event → Prop
  | .connGet stream socketFails allocFails _ =>
    Opens config pool stream socketFails allocFails → config.parent stream = none
  | .dispatch conn => conn ∉ pool.held
  | .connTimeouts stream now =>
    ∀ conn ∈ pool.queueOf config stream pool.busy, Pool.timedOut config now (pool.conn conn) = false
  | _ => True

/-- Each quiet event keeps the gauges equal to what they count. -/
theorem Metered.step (metered : Metered config pool) (event : Event) (quiet : Quiet config pool event) :
    Metered config (step config event pool) := by
  unfold Upstream.step
  cases event with
  | connGet stream socketFails allocFails now => exact metered.connGet now quiet
  | connected conn succeeds now =>
    simp only
    split
    next member => exact metered.connected member succeeds now
    · exact metered
  | use conn waits fails recycle moved =>
    simp only
    split
    · exact ⟨metered.toGauged.update conn _ fun _ => rfl, metered.owns.use conn _ waits fails recycle moved⟩
    · exact metered
  | connRelease conn registerFails now =>
    simp only
    split
    next member => exact metered.connRelease member registerFails now
    · exact metered
  | dispatch conn =>
    simp only
    split
    next monitored =>
      rcases (metered.owns conn).monitored (by simp [Pool.view, monitored]) with available | held
      · exact metered.dropAvailable available
      · exact absurd (count_pos_iff.mp held) quiet
    · exact metered
  | connTimeouts stream now => exact metered.connTimeouts quiet
  | connPendingDestroy stream => exact metered.connPendingDestroy stream

structure Accurate (config : Config) (pool : Pool) (top : Stream) : Prop where
  total : config.totalGauge top = true →
    pool.total top = ((pool.av ++ pool.busy).countP (serves config pool top) : Int) ∧ 0 ≤ pool.total top
  busy : config.busyGauge top = true →
    pool.busyCount top = (pool.held.countP (serves config pool top) : Int) ∧ 0 ≤ pool.busyCount top

/-- In every quiet run the gauges of every root are accurate. -/
theorem accurate_of_quiet (path : Runs.Path (step config) (Quiet config) .initial pool) (top : Stream)
    (parent : config.parent top = none) : Accurate config pool top := by
  have metered : Metered config pool := path.invariant (Metered config) metered_initial
    fun _ event metered quiet => metered.step event quiet
  constructor
  · intro present
    have counted := metered.total top present parent
    exact ⟨counted, counted ▸ Int.natCast_nonneg _⟩
  · intro present
    have counted := metered.busy top present parent
    exact ⟨counted, counted ▸ Int.natCast_nonneg _⟩

end

theorem accurate_of_quiet_reuse : Accurate oneUpstream (Runs.after (step oneUpstream) .initial reuse) 0 ∧
      (Runs.after (step oneUpstream) .initial reuse).total 0 = 1 ∧
      (Runs.after (step oneUpstream) .initial reuse).busyCount 0 = 1 := by
  have inTime : ∀ conn ∈ (Runs.after (step oneUpstream) .initial (reuse.take 3)).queueOf oneUpstream 0
      (Runs.after (step oneUpstream) .initial (reuse.take 3)).busy,
        Pool.timedOut oneUpstream 5 ((Runs.after (step oneUpstream) .initial (reuse.take 3)).conn conn) = false := by
    decide +kernel
  have quiet : Runs.Admits (step oneUpstream) (Quiet oneUpstream) .initial reuse :=
    ⟨fun _ => rfl, trivial, trivial, inTime, trivial, trivial, fun _ => rfl, trivial⟩
  exact ⟨accurate_of_quiet (Runs.path_after reuse quiet) 0 rfl, by decide +kernel, by decide +kernel⟩

def parentAndChild : Config :=
  { oneUpstream with
    parent := fun stream => if stream = 1 then some 0 else none
    parentBelow := by
      intro stream above
      split
      next child =>
        intro found
        cases found
        simp [child]
      · simp
    queueChild := by simp [oneUpstream] }

def timedOutTwice : List Event :=
  [.connGet 0 (fun _ => false) false 1, .connected 0 true 1, .use 0 true false true none, .connTimeouts 0 7,
    .connTimeouts 0 8, .connRelease 0 false 9]

/-- Each pass counts the holder off before the release does, and a connection of a
child counts twice for the parent. -/
theorem gauges_drift : (Runs.after (step oneUpstream) .initial timedOutTwice).busyCount 0 = -2 ∧
      ¬ Accurate oneUpstream (Runs.after (step oneUpstream) .initial timedOutTwice) 0 ∧
      (step parentAndChild (.connGet 1 (fun _ => false) false 1) .initial).total 0 = 2 ∧
      ¬ Accurate parentAndChild (step parentAndChild (.connGet 1 (fun _ => false) false 1) .initial) 0 := by
  have negative : (Runs.after (step oneUpstream) .initial timedOutTwice).busyCount 0 = -2 := by decide +kernel
  have twice : (step parentAndChild (.connGet 1 (fun _ => false) false 1) .initial).total 0 = 2 := by
    decide +kernel
  have one : ((step parentAndChild (.connGet 1 (fun _ => false) false 1) .initial).av ++
      (step parentAndChild (.connGet 1 (fun _ => false) false 1) .initial).busy).length = 1 := by
    decide +kernel
  refine ⟨negative, fun accurate => ?_, twice, fun accurate => ?_⟩
  · have bound := (accurate.busy rfl).2
    omega
  · have counted := (accurate.total rfl).1
    have bound := countP_le_length (p := serves parentAndChild
      (step parentAndChild (.connGet 1 (fun _ => false) false 1) .initial) 0)
      (l := (step parentAndChild (.connGet 1 (fun _ => false) false 1) .initial).av ++
        (step parentAndChild (.connGet 1 (fun _ => false) false 1) .initial).busy)
    omega

end FluentBit.Upstream
