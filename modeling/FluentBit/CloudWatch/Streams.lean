import FluentBit.CloudWatch.Flushes
import FluentBit.Foundation.Runs

/-! The streams of the context while flushes use them. A lookup destroys the streams that it passes and that
have expired, whether or not a flush still has events for them. -/

set_option autoImplicit false

namespace FluentBit.CloudWatch

open List Nat Bool Ascii Runs

variable {Object : Type}

def Point.stream : Point Object → Option Nat
  | .next => none
  | .entering stream _ => some stream
  | .adding stream _ => some stream
  | .ended => none

def Phase.stream : Phase Object → Option Nat
  | .running point => point.stream
  | .creating _ => none
  | .putting _ _ point => point.stream

def Flush.Needs (flush : Flush Object) (stream : Nat) : Prop :=
  (flush.events ≠ [] ∧ flush.currentStream = some stream) ∨ flush.phase.stream = some stream

def System.Has (s : System Object) (stream : Nat) : Prop := ∃ logStream ∈ s.streams, logStream.address = stream

def System.Kept (s : System Object) : Prop :=
  ∀ i flush, s.flushes i = some flush → flush.events ≠ [] → ∃ stream, flush.currentStream = some stream ∧ s.Has stream

def passed (names : Names) (streams : List LogStream) : List LogStream :=
  streams.takeWhile fun stream => !stream.named names

def System.lookingUp (s : System Object) : Option Names :=
  match s.current.bind s.flushes with
  | none => none
  | some flush =>
    match flush.phase, flush.records with
    | .running .next, record :: _ => some record.names
    | _, _ => none

def Spares (s : System Object) : Event Object → Prop
  | .turn now =>
    ∀ names, s.lookingUp = some names → ∀ stream ∈ passed names s.streams,
      ∀ j other, s.flushes j = some other → other.Needs stream.address → now ≤ stream.expiration
  | _ => True

@[simp] theorem clearTimeSpan_address (stream : LogStream) : (clearTimeSpan stream).address = stream.address := rfl

@[simp] theorem setStreamTimeSpan_address (timestamp : Nat) (stream : LogStream) :
    (setStreamTimeSpan timestamp stream).address = stream.address := rfl

variable (now : Int)

@[simp] theorem renewExpiration_address (stream : LogStream) :
    (renewExpiration now stream).address = stream.address := rfl

private theorem lookupStream_keeps {now : Int} {names : Names} {streams : List LogStream} {stream : LogStream}
    (member : stream ∈ streams) (spared : stream ∈ passed names streams → now ≤ stream.expiration) :
    stream ∈ (lookupStream now names streams).2 := by
  induction streams with
  | nil => cases member
  | cons first streams ih =>
    rw [lookupStream]
    cases named : first.named names with
    | true => exact member
    | false =>
      have later (inside : stream ∈ passed names streams) : now ≤ stream.expiration := by
        apply spared
        rw [passed, takeWhile_cons_of_pos (by simp [named])]
        exact mem_cons_of_mem _ inside
      simp only [false_eq_true, if_false]
      cases mem_cons.mp member with
      | inl same =>
        subst same
        have alive : now ≤ stream.expiration := by
          apply spared
          rw [passed, takeWhile_cons_of_pos (by simp [named])]
          exact mem_cons_self ..
        rw [if_neg (by omega)]
        exact mem_cons_self ..
      | inr inside =>
        have kept := ih inside later
        split
        · exact kept
        · exact mem_cons_of_mem _ kept

theorem lookupStream_sublist (names : Names) (streams : List LogStream) :
    (lookupStream now names streams).2.Sublist streams := by
  induction streams with
  | nil => exact .slnil
  | cons first streams ih =>
    rw [lookupStream]
    split
    · exact .refl _
    · simp only
      split
      · exact .cons _ ih
      · exact .cons_cons _ ih

theorem lookupStream_found {now : Int} {names : Names} {streams : List LogStream} {address : Nat}
    (found : (lookupStream now names streams).1 = some address) :
    ∃ stream ∈ (lookupStream now names streams).2, stream.address = address ∧ stream.named names = true := by
  induction streams with
  | nil => cases found
  | cons first streams ih =>
    rw [lookupStream] at found ⊢
    cases named : first.named names with
    | true =>
      simp only [named, if_true, Option.some.injEq] at found
      exact ⟨first, mem_cons_self .., found, named⟩
    | false =>
      simp only [named, false_eq_true, if_false] at found ⊢
      obtain ⟨stream, member, same⟩ := ih found
      refine ⟨stream, ?_, same⟩
      split
      · exact member
      · exact mem_cons_of_mem _ member

/-! ### Streams that are needed -/

def Flush.Pending (flush : Flush Object) (has : Nat → Prop) : Prop :=
  flush.events ≠ [] → ∃ stream, flush.currentStream = some stream ∧ has stream

structure Served (has : Nat → Prop) (flush : Flush Object) : Prop where
  pending : flush.Pending has
  held : ∀ stream, flush.phase.stream = some stream → has stream

def System.Tended (s : System Object) : Prop := ∀ i flush, s.flushes i = some flush → Served s.Has flush

theorem Served.mono {has more : Nat → Prop} {flush : Flush Object} (served : Served has flush)
    (grows : ∀ stream, has stream → more stream) : Served more flush := by
  obtain ⟨pending, held⟩ := served
  constructor
  · intro some
    obtain ⟨stream, current, present⟩ := pending some
    exact ⟨stream, current, grows stream present⟩
  · intro stream holds
    exact grows stream (held stream holds)

variable {record : Record Object} {has : Nat → Prop}

section

variable {s later : System Object} {flush : Flush Object} {point : Point Object} {i : Nat}

theorem System.Tended.set (tended : s.Tended) (served : Served s.Has flush) : (s.set i flush).Tended := by
  intro j other found
  change Function.update s.flushes i (some flush) j = some other at found
  rw [Function.update_apply] at found
  split at found
  · cases found
    exact served
  · exact tended j other found

theorem System.Tended.mono (tended : s.Tended) (flushes : later.flushes = s.flushes)
    (grows : ∀ stream, s.Has stream → later.Has stream) : later.Tended := by
  intro j other found
  rw [flushes] at found
  exact (tended j other found).mono grows

theorem System.Tended.wait (tended : s.Tended) : s.wait.Tended := tended.mono rfl fun _ => id

theorem has_append {stream : Nat} (present : s.Has stream) (more : List LogStream) :
    ∃ logStream ∈ s.streams ++ more, logStream.address = stream := by
  obtain ⟨logStream, member, same⟩ := present
  exact ⟨logStream, mem_append_left _ member, same⟩

theorem has_modify {change : LogStream → LogStream} (stays : ∀ stream, (change stream).address = stream.address)
    (address : Nat) {stream : Nat} (present : s.Has stream) : (s.modify address change).Has stream := by
  obtain ⟨logStream, member, same⟩ := present
  refine ⟨_, mem_map_of_mem member, ?_⟩
  split
  · rw [stays, same]
  · exact same

theorem Flush.served_idle (idle : flush.events = []) (held : ∀ stream, flush.phase.stream = some stream → has stream) :
    Served has flush := ⟨fun some => absurd idle some, held⟩

private theorem afterSend_tended (tended : s.Tended) (held : ∀ stream, point.stream = some stream → s.Has stream)
    (sent : Bool) :
    (afterSend s i flush sent point).Tended := by
  unfold afterSend
  split
  · exact tended.set (Flush.served_idle rfl held)
  · exact tended.set (Flush.served_idle rfl (by intro _ holds; cases holds))
  · exact tended.set (Flush.served_idle rfl (by intro _ holds; cases holds))

private theorem sortEvents_nil {events : List CwEvent} (some : sortEvents events ≠ []) : events ≠ [] := by
  rintro rfl
  exact some (by simp [sortEvents])

private theorem served_putting {retry : Bool} {payload : Payload}
    (pending : flush.Pending has)
    (held : ∀ stream, point.stream = some stream → has stream) :
    Served has { flush with events := sortEvents flush.events, phase := .putting retry payload point } :=
  ⟨fun some => pending (sortEvents_nil some), held⟩

theorem sendLogEvents_tended (tended : s.Tended)
    (pending : flush.Pending s.Has)
    (held : ∀ stream, point.stream = some stream → s.Has stream) : (sendLogEvents now s i flush point).Tended := by
  unfold sendLogEvents
  split
  · exact afterSend_tended tended held _
  · simp only
    split
    · exact afterSend_tended tended held _
    next address _ =>
      have cleared {stream : Nat} (present : s.Has stream) : (s.modify address clearTimeSpan).Has stream :=
        has_modify clearTimeSpan_address _ present
      split
      · have later : (s.modify address clearTimeSpan).Tended := tended.mono rfl fun _ => cleared
        exact afterSend_tended later (fun stream holds => cleared (held stream holds)) _
      next text _ =>
        -- the request goes out, and the events stay pending until its response
        have renewed {stream : Nat} (present : s.Has stream) :
            ((s.modify address clearTimeSpan).modify address (renewExpiration now)).Has stream :=
          has_modify (renewExpiration_address now) _ (cleared present)
        have later : ((s.modify address clearTimeSpan).modify address (renewExpiration now)).Tended :=
          tended.mono rfl fun _ => renewed
        have pendingLater : flush.Pending _ := fun some =>
          have ⟨stream, current, present⟩ := pending some
          ⟨stream, current, renewed present⟩
        exact (later.set (served_putting pendingLater fun stream holds => renewed (held stream holds))).mono rfl
          fun _ => id

theorem served_goOn (pending : flush.Pending has)
    (held : ∀ stream, point.stream = some stream → has stream) : Served has (flush.goOn point) := ⟨pending, held⟩

theorem attach_events (s : System Object) (stream : Nat) (flush : Flush Object) :
    (flush.attach s stream).events = flush.events := by
  unfold Flush.attach
  simp only
  split
  next idle => exact idle.symm
  · rfl

theorem attach_current (s : System Object) (stream : Nat) (flush : Flush Object) :
    (flush.attach s stream).currentStream = some stream := by
  unfold Flush.attach
  simp only
  split
  · rfl
  · rfl

private theorem keepEvent_tended {logStream : LogStream} (record : Record Object) (json : Bytes) (tended : s.Tended)
    (current : flush.currentStream = some logStream.address) (present : s.Has logStream.address) :
    (keepEvent now s i flush logStream record json).Tended := by
  have pending : flush.Pending s.Has :=
    fun _ => ⟨logStream.address, current, present⟩
  have held : ∀ other, some logStream.address = some other → s.Has other := by
    intro other same
    cases same
    exact present
  have set : s.modify logStream.address (setStreamTimeSpan record.timestamp) |>.Has logStream.address :=
    has_modify (setStreamTimeSpan_address _) _ present
  have later : (s.modify logStream.address (setStreamTimeSpan record.timestamp)).Tended :=
    tended.mono rfl fun _ => has_modify (setStreamTimeSpan_address _) _
  have heldLater : ∀ other, some logStream.address = some other →
      (s.modify logStream.address (setStreamTimeSpan record.timestamp)).Has other := by
    intro other same
    cases same
    exact set
  unfold keepEvent
  simp only
  split
  · exact sendLogEvents_tended now tended pending held
  · split
    · split
      · exact tended.set (served_goOn pending held)
      · exact sendLogEvents_tended now tended pending held
    · split
      · exact sendLogEvents_tended now later (fun _ => ⟨_, current, set⟩) heldLater
      · exact later.set (served_goOn (fun _ => ⟨_, current, set⟩) heldLater)

theorem read_address (s : System Object) (stream : Nat) : (s.read stream).address = stream := by
  unfold System.read System.stream?
  cases found : s.streams.find? fun logStream => logStream.address = stream with
  | none => rfl
  | some logStream => simpa using List.find?_some found

theorem served_fail (pending : flush.Pending has) :
    Served has flush.fail := ⟨pending, fun _ holds => nomatch holds⟩

private theorem retryAddEvent_tended (formats : Formats Object) (logKey : Bool) (now : Int) {stream : Nat}
    (object : Object)
    (tended : s.Tended) (present : s.Has stream) :
    (retryAddEvent formats logKey now s i flush stream record object).Tended := by
  have current := attach_current s stream flush
  have pending : (flush.attach s stream).events ≠ [] →
      ∃ other, (flush.attach s stream).currentStream = some other ∧ s.Has other := fun _ => ⟨stream, current, present⟩
  have held : ∀ other, some stream = some other → s.Has other := by
    intro other same
    cases same
    exact present
  unfold retryAddEvent
  simp only
  split
  · exact tended.set (served_fail pending)
  · split
    · exact tended.set (served_goOn pending held)
    · exact sendLogEvents_tended now tended pending held
  · exact tended.set (served_goOn pending held)
  · have same := read_address s stream
    apply keepEvent_tended now record _ tended
    · rw [same]
      exact current
    · rw [same]
      exact present

theorem lookup_tended {now : Int} {names : Names} (tended : s.Tended)
    (spared : ∀ stream ∈ passed names s.streams, ∀ j other, s.flushes j = some other → other.Needs stream.address →
      now ≤ stream.expiration) :
    ({ s with streams := (lookupStream now names s.streams).2 } : System Object).Tended := by
  intro j other there
  obtain ⟨pending, held⟩ := tended j other there
  have kept (stream : Nat) (needs : other.Needs stream) (present : s.Has stream) :
      ∃ logStream ∈ (lookupStream now names s.streams).2, logStream.address = stream := by
    obtain ⟨logStream, member, rfl⟩ := present
    exact ⟨logStream, lookupStream_keeps member fun passes => spared logStream passes j other there needs, rfl⟩
  constructor
  · intro some
    obtain ⟨stream, current, present⟩ := pending some
    exact ⟨stream, current, kept stream (.inl ⟨some, current⟩) present⟩
  · intro stream holds
    exact kept stream (.inr holds) (held stream holds)

section

variable (tended : s.Tended)
  (pending : flush.Pending s.Has)
include tended pending

theorem nextRecord_tended {now : Int} (found : s.flushes i = some flush)
    (spared : ∀ record records, flush.records = record :: records → ∀ stream ∈ passed record.names s.streams,
      ∀ j other, s.flushes j = some other → other.Needs stream.address → now ≤ stream.expiration) :
    (nextRecord now s i flush).Tended := by
  unfold nextRecord
  split
  · exact sendLogEvents_tended now tended pending nofun
  next record records chunk =>
    have left := lookup_tended tended (spared record records chunk)
    obtain ⟨pendingLeft, _⟩ := left i flush found
    simp only
    split
    next stream same =>
      apply left.set
      refine ⟨pendingLeft, ?_⟩
      intro other holds
      cases holds
      obtain ⟨logStream, member, address, _⟩ := lookupStream_found same
      exact ⟨logStream, member, address⟩
    · apply System.Tended.wait
      apply left.set
      exact ⟨pendingLeft, nofun⟩

private theorem addEvent_tended {now : Int} {stream : Nat} (present : s.Has stream) :
    (addEvent now s i flush stream record).Tended := by
  have held : ∀ other, (Point.adding stream record).stream = some other → s.Has other := by
    intro other holds
    cases holds
    exact present
  unfold addEvent
  split
  · exact tended.set (served_goOn pending nofun)
  · split
    · exact sendLogEvents_tended now tended pending held
    · exact tended.set (served_goOn pending held)

end

private theorem turn_tended (formats : Formats Object) (logKey : Bool) {now : Int} (tended : s.Tended)
    (found : s.flushes i = some flush) (running : flush.phase = .running point)
    (spared : point = .next → ∀ record records, flush.records = record :: records →
      ∀ stream ∈ passed record.names s.streams, ∀ j other, s.flushes j = some other → other.Needs stream.address →
        now ≤ stream.expiration) : (turn formats logKey now s i flush point).Tended := by
  obtain ⟨pending, held⟩ := tended i flush found
  rw [running] at held
  cases point with
  | next => exact nextRecord_tended tended pending found (spared rfl)
  | entering stream record => exact addEvent_tended tended pending (held stream rfl)
  | adding stream record =>
    simp only [turn]
    split
    · exact tended.set (served_goOn pending nofun)
    · exact retryAddEvent_tended formats logKey now _ tended (held stream rfl)
  | ended => exact tended.mono rfl fun _ => id

private theorem created_tended (tended : s.Tended) (found : s.flushes i = some flush) :
    (created now s i flush record).Tended := by
  obtain ⟨pending, _⟩ := tended i flush found
  apply System.Tended.set
  · exact tended.mono rfl fun _ present => has_append present _
  · apply served_goOn
    · intro some
      obtain ⟨stream, current, present⟩ := pending some
      exact ⟨stream, current, has_append present _⟩
    · intro stream holds
      cases holds
      exact ⟨_, mem_append_right _ (mem_singleton_self _), rfl⟩

theorem replied_tended {retry : Bool} {payload : Payload} (tended : s.Tended) (found : s.flushes i = some flush)
    (waits : flush.phase = .putting retry payload point) (reply : Reply) :
    (replied s i flush retry payload point reply).Tended := by
  obtain ⟨pending, held⟩ := tended i flush found
  rw [waits] at held
  have resumed : ({ s with current := some i } : System Object).Tended := tended.mono rfl fun _ => id
  cases reply with
  | ok => exact afterSend_tended resumed held true
  | failed => exact afterSend_tended resumed held false
  | invalid =>
    simp only [replied]
    split
    · apply System.Tended.set
      · exact tended.mono rfl fun _ => id
      · exact ⟨pending, held⟩
    · exact afterSend_tended resumed held false

private theorem step_tended (formats : Formats Object) (logKey : Bool) (event : Event Object) (tended : s.Tended)
    (spares : Spares s event) : (step formats logKey event s).Tended := by
  unfold step
  split
  next now j running =>
    split
    next flush found =>
      split
      next point runs =>
        apply turn_tended formats logKey tended found runs
        rintro rfl record records chunk
        apply spares
        simp [System.lookingUp, running, found, runs, chunk]
      · exact tended
    · exact tended
  next j records _ =>
    split
    · apply System.Tended.set
      · exact tended.mono rfl fun _ => id
      · exact Flush.served_idle rfl nofun
    · exact tended
  next j success now _ =>
    split
    next flush found =>
      split
      next record _ =>
        split
        · exact created_tended now tended found
        · apply System.Tended.set
          · exact tended.mono rfl fun _ => id
          · exact served_fail (tended j flush found).pending
      · exact tended
    · exact tended
  next j reply _ =>
    split
    next flush found =>
      split
      next retry payload point waits => exact replied_tended tended found waits reply
      · exact tended
    · exact tended
  · exact tended

end

def System.addresses (s : System Object) : List Nat := s.streams.map LogStream.address

def System.Distinct (s : System Object) : Prop := s.addresses.Nodup ∧ ∀ address ∈ s.addresses, address < s.fresh

def Shrinks (s later : System Object) : Prop := later.addresses.Sublist s.addresses ∧ later.fresh = s.fresh

section

variable {s later : System Object} {flush : Flush Object} {i : Nat}

theorem Shrinks.distinct (shrinks : Shrinks s later) (distinct : s.Distinct) : later.Distinct := by
  obtain ⟨nodup, bound⟩ := distinct
  refine ⟨nodup.sublist shrinks.1, fun address member => ?_⟩
  rw [shrinks.2]
  exact bound address (shrinks.1.subset member)

theorem addresses_modify {change : LogStream → LogStream} (stays : ∀ stream, (change stream).address = stream.address)
    (s : System Object) (address : Nat) : (s.modify address change).addresses = s.addresses := by
  unfold System.addresses System.modify
  rw [map_map]
  apply map_congr_left
  intro stream _
  simp only [Function.comp]
  split
  · exact stays stream
  · rfl

theorem created_distinct (distinct : s.Distinct) : (created now s i flush record).Distinct := by
  obtain ⟨nodup, bound⟩ := distinct
  unfold created System.Distinct System.addresses
  simp only [System.set, map_append, map_cons, map_nil]
  constructor
  · refine nodup_append.mpr ⟨nodup, by simp, ?_⟩
    rintro address old _ new rfl
    obtain rfl := mem_singleton.mp new
    exact absurd (bound _ old) (Nat.lt_irrefl _)
  · intro address member
    cases mem_append.mp member with
    | inl old => exact lt_succ_of_lt (bound _ old)
    | inr new =>
      obtain rfl := mem_singleton.mp new
      exact lt_succ_self _

end

/-- In a run whose lookups spare what flushes need, pending events always have their stream. -/
theorem kept_of_spares (formats : Formats Object) (logKey : Bool) {s : System Object}
    (run : Runs.Path (step formats logKey) Spares System.start s) : s.Kept := by
  have tended : s.Tended := by
    apply run.invariant System.Tended
    · intro i flush found
      cases found
    · intro before event invariant admissible
      exact step_tended formats logKey event invariant admissible
  intro i flush found
  exact (tended i flush found).pending

def sampleFormats : Formats Unit where
  msgpackToJson _ size := if 7 < size then some (ofString "\x7b\"a\":1\x7d") else none
  writeStr text size :=
    let escaped := text.flatMap fun byte => if byte = quote then [backslash, byte] else [byte]
    if escaped.length ≤ size then some escaped else none

def sampleRecord (name : String) (seconds : Int) : Record Unit where
  names := { stream := ofString name, group := ofString "logs" }
  values := [()]
  seconds
  nanoseconds := 0

theorem spares_unexpired {s : System Object} {now : Int}
    (unexpired : (s.lookingUp.all fun names => (passed names s.streams).all fun stream => now ≤ stream.expiration) = true) :
    Spares s (.turn now) := by
  intro names looking stream member j other there needs
  rw [looking, Option.all_some, all_eq_true] at unexpired
  exact of_decide_eq_true (unexpired stream member)

/-- A flush gathers and sends its event while another one waits for its stream. -/
def twoFlushes : List (Event Unit) :=
  [.start 0 [sampleRecord "a" 1], .turn 0, .start 1 [sampleRecord "b" 2], .turn 0, .created 0 true 0, .turn 0, .turn 0,
    .turn 0, .turn 0]

theorem twoFlushes_kept : (Runs.after (step sampleFormats false) System.start twoFlushes).Kept := by
  apply kept_of_spares sampleFormats false
  apply path_after
  refine ⟨trivial, ?_, trivial, ?_, trivial, ?_, ?_, ?_, ?_, trivial⟩
  all_goals exact spares_unexpired (by decide +kernel)

def idleStream : List (Event Unit) :=
  [.start 0 [sampleRecord "a" 1], .turn 0, .created 0 true 0, .turn 0, .turn 0, .turn 0, .turn 0, .replied 0 .ok, .turn 0,
    .start 1 [sampleRecord "a" 20000, sampleRecord "b" 20000],
    .turn 20000, .turn 20000, .turn 20000, .turn 20000, .turn 20000]

theorem idleStream_not_kept : ¬ ∀ s, Runs.Path (step sampleFormats false) anyEvent System.start s → s.Kept := by
  intro always
  have kept := always _ (reached (step sampleFormats false) System.start idleStream)
  have gone : (Runs.after (step sampleFormats false) System.start idleStream).streams = [] := by decide +kernel
  have pending : (((Runs.after (step sampleFormats false) System.start idleStream).flushes 1).map
      fun flush => flush.events.length) = some 1 := by decide +kernel
  obtain ⟨flush, found, single⟩ := Option.map_eq_some_iff.mp pending
  obtain ⟨stream, _, logStream, member, _⟩ := kept 1 flush found (by
    intro nothing
    rw [nothing] at single
    cases single)
  rw [gone] at member
  cases member

end FluentBit.CloudWatch
