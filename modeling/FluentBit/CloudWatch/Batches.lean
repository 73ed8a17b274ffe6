import FluentBit.CloudWatch.Spans

/-! What the flushes send. While a stream's events are gathered by one flush at a time, the span in the
stream is that of the pending events, and a request holds events of one stream and of one day. -/

set_option autoImplicit false

namespace FluentBit.CloudWatch

open List Option Runs Function

variable {Object : Type}

structure Payload.Good (payload : Payload) : Prop where
  source : ∀ event ∈ payload.events, event.source.same payload.names = true
  few : payload.events.length ≤ maxEventsPerPut
  sorted : payload.events.Pairwise fun earlier later => earlier.timestamp ≤ later.timestamp
  close : ∀ event ∈ payload.events, ∀ other ∈ payload.events, event.timestamp < other.timestamp + oneDayInMilliseconds
  written : putPayload payload.names payload.events = some payload.text
  short : payload.text.length ≤ payloadSize

private theorem tryToWrite_short {text str written : Bytes} (done : tryToWrite text str = some written) :
    written.length ≤ payloadSize := by
  unfold tryToWrite at done
  split at done
  · cases done
  next fits =>
    cases done
    rw [length_append]
    omega

private theorem putPayload_short {names : Names} {events : List CwEvent} {text : Bytes}
    (written : putPayload names events = some text) : text.length ≤ payloadSize := by
  obtain ⟨_, _, written⟩ := bind_eq_some_iff.mp written
  obtain ⟨_, _, written⟩ := bind_eq_some_iff.mp written
  exact tryToWrite_short written

private theorem sortEvents_perm (events : List CwEvent) : (sortEvents events).Perm events := mergeSort_perm ..

private theorem sortEvents_sorted (events : List CwEvent) :
    (sortEvents events).Pairwise fun earlier later => earlier.timestamp ≤ later.timestamp := by
  have sorted := @pairwise_mergeSort CwEvent (fun earlier later => decide (earlier.timestamp ≤ later.timestamp))
    (by simp only [decide_eq_true_eq]; omega) (by simp only [Bool.or_eq_true, decide_eq_true_eq]; omega) events
  simpa [sortEvents] using sorted

/-! ### Invariants -/

def Phase.sending : Phase Object → Bool
  | .putting _ _ _ => true
  | _ => false

def Point.record : Point Object → Option (Record Object)
  | .entering _ record => some record
  | .adding _ record => some record
  | _ => none

def Phase.record : Phase Object → Option (Record Object)
  | .running point => point.record
  | .creating _ => none
  | .putting _ _ point => point.record

def Flush.timestamps (flush : Flush Object) : List Nat := flush.events.map CwEvent.timestamp

def Flush.Gathers (flush : Flush Object) (stream : Nat) : Prop :=
  flush.events ≠ [] ∧ flush.currentStream = some stream ∧ flush.phase.sending = false

structure Orderly (s : System Object) (flush : Flush Object) : Prop where
  sources : ∀ stream, flush.currentStream = some stream → ∀ event ∈ flush.events, (s.read stream).named event.source = true
  held : ∀ stream record, flush.phase.stream = some stream → flush.phase.record = some record →
    (s.read stream).named record.names = true
  settled : ∀ stream record, flush.phase = .running (.adding stream record) → flush.events ≠ [] →
    flush.currentStream = some stream
  few : flush.events.length ≤ maxEventsPerPut
  close : ∀ event ∈ flush.events, ∀ other ∈ flush.events, event.timestamp < other.timestamp + oneDayInMilliseconds
  dated : ∀ time ∈ flush.timestamps, time ≠ 0
  request : ∀ retry payload point, flush.phase = .putting retry payload point → payload.Good

structure Spanned (s : System Object) : Prop where
  alone : ∀ i j flush other stream, s.flushes i = some flush → s.flushes j = some other → flush.Gathers stream →
    other.Gathers stream → i = j
  right : ∀ i flush stream, s.flushes i = some flush → flush.Gathers stream → (s.read stream).Spans flush.timestamps
  clear : ∀ stream, s.Has stream → (∀ i flush, s.flushes i = some flush → ¬ flush.Gathers stream) →
    (s.read stream).Spans []

structure Batched (s : System Object) : Prop where
  tended : s.Tended
  distinct : s.Distinct
  orderly : ∀ i flush, s.flushes i = some flush → Orderly s flush
  spanned : Spanned s
  sent : ∀ payload ∈ s.sent, payload.Good

variable (formats : Formats Object) (logKey : Bool) (now : Int)

section

variable {s later : System Object} {flush changed : Flush Object} {point : Point Object} {i : Nat}

theorem Orderly.mono (orderly : Orderly s flush) (before : Served s.Has flush) (after : Served later.Has flush)
    (names : ∀ stream, s.Has stream → later.Has stream → (later.read stream).names = (s.read stream).names) :
    Orderly later flush := by
  have pending {has : Nat → Prop} {stream : Nat} (served : Served has flush) (current : flush.currentStream = some stream)
      (some : flush.events ≠ []) : has stream := by
    obtain ⟨other, sameStream, present⟩ := served.pending some
    rw [current] at sameStream
    cases sameStream
    exact present
  refine { orderly with sources := ?_, held := ?_ }
  · intro stream current event member
    have some : flush.events ≠ [] := ne_nil_of_mem member
    unfold LogStream.named
    rw [names stream (pending before current some) (pending after current some)]
    exact orderly.sources stream current event member
  · intro stream record holds held
    unfold LogStream.named
    rw [names stream (before.held stream holds) (after.held stream holds)]
    exact orderly.held stream record holds held

theorem Batched.update (batched : Batched s) (flushes : later.flushes = Function.update s.flushes i (some changed))
    (tended : later.Tended) (distinct : later.Distinct) (orderly : Orderly later changed)
    (names : ∀ stream, s.Has stream → later.Has stream → (later.read stream).names = (s.read stream).names)
    (same : ∀ stream, s.Has stream → later.Has stream → (∀ flush, s.flushes i = some flush → ¬ flush.Gathers stream) →
      ¬ changed.Gathers stream → ∀ timestamps, (s.read stream).Spans timestamps → (later.read stream).Spans timestamps)
    (gathered : ∀ stream, changed.Gathers stream → (later.read stream).Spans changed.timestamps ∧
      ∀ j other, j ≠ i → s.flushes j = some other → ¬ other.Gathers stream)
    (released : ∀ flush stream, s.flushes i = some flush → flush.Gathers stream → ¬ changed.Gathers stream →
      later.Has stream → (later.read stream).Spans [])
    (fresh : ∀ stream, later.Has stream → ¬ s.Has stream → (later.read stream).Spans [])
    (sent : ∀ payload ∈ later.sent, payload.Good) : Batched later := by
  have cases {j : Nat} {other : Flush Object} (found : later.flushes j = some other) :
      (j = i ∧ other = changed) ∨ (j ≠ i ∧ s.flushes j = some other) := by
    rw [flushes, update_apply] at found
    split at found
    next equal => exact .inl ⟨equal, (Option.some.inj found).symm⟩
    next differs => exact .inr ⟨differs, found⟩
  have present {j : Nat} {other : Flush Object} {stream : Nat} (system : System Object) (all : system.Tended)
      (found : system.flushes j = some other) (gathers : other.Gathers stream) : system.Has stream := by
    obtain ⟨name, current, has⟩ := (all j other found).pending gathers.1
    rw [gathers.2.1] at current
    cases current
    exact has
  refine ⟨tended, distinct, ?_, ⟨?_, ?_, ?_⟩, sent⟩
  · intro j other found
    obtain ⟨_, rfl⟩ | ⟨_, before⟩ := cases found
    · exact orderly
    · exact (batched.orderly j other before).mono (batched.tended j other before) (tended j other found) names
  · intro j k first second stream foundFirst foundSecond gathersFirst gathersSecond
    obtain ⟨rfl, rfl⟩ | ⟨differs, before⟩ := cases foundFirst
    · obtain ⟨rfl, _⟩ | ⟨others, there⟩ := cases foundSecond
      · rfl
      · exact absurd gathersSecond ((gathered stream gathersFirst).2 k second others there)
    · obtain ⟨rfl, rfl⟩ | ⟨_, there⟩ := cases foundSecond
      · exact absurd gathersFirst ((gathered stream gathersSecond).2 j first differs before)
      · exact batched.spanned.alone j k first second stream before there gathersFirst gathersSecond
  · intro j other stream found gathers
    have has := present later tended found gathers
    obtain ⟨_, rfl⟩ | ⟨differs, before⟩ := cases found
    · exact (gathered stream gathers).1
    · apply same stream (present s batched.tended before gathers) has
      · intro old stored gathersOld
        exact differs (batched.spanned.alone j i other old stream before stored gathers gathersOld)
      · intro gathersChanged
        exact (gathered stream gathersChanged).2 j other differs before gathers
      · exact batched.spanned.right j other stream before gathers
  · intro stream has nobody
    have notChanged : ¬ changed.Gathers stream := nobody i changed (by rw [flushes, update_self])
    by_cases old : s.Has stream
    · by_cases gathers : ∃ flush, s.flushes i = some flush ∧ flush.Gathers stream
      · obtain ⟨flush, stored, gathers⟩ := gathers
        exact released flush stream stored gathers notChanged has
      · have none : ∀ flush, s.flushes i = some flush → ¬ flush.Gathers stream :=
          fun flush stored gathersOld => gathers ⟨flush, stored, gathersOld⟩
        apply same stream old has none notChanged
        apply batched.spanned.clear stream old
        intro j other found gathersOther
        by_cases equal : j = i
        · subst equal
          exact none other found gathersOther
        · apply nobody j other _ gathersOther
          rw [flushes, update_of_ne equal]
          exact found
    · exact fresh stream has old

private theorem set_set : (s.set i flush).set i changed = s.set i changed := by
  unfold System.set
  simp

private theorem set_found (s : System Object) (i : Nat) (flush : Flush Object) :
    (s.set i flush).flushes i = some flush :=
  update_self ..

theorem Batched.relabel (batched : Batched (s.set i flush)) (tended : (s.set i changed).Tended)
    (events : changed.events = flush.events) (current : flush.events ≠ [] → changed.currentStream = flush.currentStream)
    (running : flush.phase.sending = false) (stays : changed.phase.sending = false)
    (held : ∀ stream record, changed.phase.stream = some stream → changed.phase.record = some record →
      (s.read stream).named record.names = true)
    (settled : ∀ stream record, changed.phase = .running (.adding stream record) → changed.events ≠ [] →
      changed.currentStream = some stream) : Batched (s.set i changed) := by
  have old := batched.orderly i flush (set_found s i flush)
  have same (stream : Nat) : changed.Gathers stream ↔ flush.Gathers stream := by
    unfold Flush.Gathers
    rw [events, running, stays]
    constructor
    · rintro ⟨some, name, _⟩
      exact ⟨some, (current some).symm.trans name, rfl⟩
    · rintro ⟨some, name, _⟩
      exact ⟨some, (current some).trans name, rfl⟩
  have timestamps : changed.timestamps = flush.timestamps := by
    unfold Flush.timestamps
    rw [events]
  have orderly : Orderly (s.set i changed) changed := by
    refine ⟨?_, held, settled, by rw [events]; exact old.few, by rw [events]; exact old.close,
      by rw [timestamps]; exact old.dated, ?_⟩
    · intro stream name event member
      rw [events] at member
      exact old.sources stream ((current (ne_nil_of_mem member)).symm.trans name) event member
    · intro retry payload point waits
      rw [waits] at stays
      cases stays
  have flushes : (s.set i changed).flushes = Function.update (s.set i flush).flushes i (some changed) :=
    (congrArg System.flushes set_set).symm
  refine batched.update flushes tended batched.distinct orderly ?_ ?_ ?_ ?_ ?_ batched.sent
  · exact fun _ _ _ => rfl
  · exact fun _ _ _ _ _ _ spans => spans
  · intro stream gathers
    rw [timestamps]
    have gathersOld := (same stream).mp gathers
    refine ⟨batched.spanned.right i flush stream (set_found s i flush) gathersOld, ?_⟩
    intro j other differs found gathersOther
    exact differs (batched.spanned.alone j i other flush stream found (set_found s i flush) gathersOther gathersOld)
  · intro stored stream found gathers none _
    rw [set_found] at found
    cases found
    exact absurd ((same stream).mpr gathers) none
  · exact fun _ has none => absurd has none

/-! ### Sends -/

structure Releases (s : System Object) (flush : Flush Object) (later : System Object) : Prop where
  reads : ∀ stream, later.Has stream → s.Has stream ∧ (later.read stream).names = (s.read stream).names
  same : ∀ stream, later.Has stream → ¬ flush.Gathers stream → ∀ timestamps, (s.read stream).Spans timestamps →
    (later.read stream).Spans timestamps
  released : ∀ stream, later.Has stream → flush.Gathers stream → (later.read stream).Spans []

theorem Releases.idle (none : ∀ stream, ¬ flush.Gathers stream) (streams : later.streams = s.streams) :
    Releases s flush later := by
  have has {stream : Nat} (present : later.Has stream) : s.Has stream := by
    unfold System.Has at present ⊢
    rwa [streams] at present
  have read (stream : Nat) : later.read stream = s.read stream := by
    unfold System.read System.stream?
    rw [streams]
  refine ⟨fun stream present => ⟨has present, by rw [read]⟩, ?_, fun stream _ gathers => absurd gathers (none stream)⟩
  intro stream _ _ timestamps spans
  rw [read]
  exact spans

theorem Releases.clear {address : Nat} {changed : LogStream} (gathers : flush.Gathers address)
    (only : ∀ stream, flush.Gathers stream → stream = address) (has : ∀ stream, later.Has stream → s.Has stream)
    (reads : ∀ stream, later.read stream = if stream = address then changed else s.read stream)
    (names : changed.names = (s.read address).names) (cleared : changed.Spans []) : Releases s flush later := by
  constructor
  · intro stream there
    refine ⟨has stream there, ?_⟩
    rw [reads]
    split
    next equal => rw [names, equal]
    · rfl
  · intro stream _ none timestamps spans
    have differs : stream ≠ address := by
      rintro rfl
      exact none gathers
    rw [reads, if_neg differs]
    exact spans
  · intro stream _ there
    rw [reads, if_pos (only stream there)]
    exact cleared

theorem Batched.release (batched : Batched (s.set i flush)) (releases : Releases s flush later)
    (flushes : later.flushes = Function.update s.flushes i (some changed)) (tended : later.Tended)
    (distinct : later.Distinct) (orderly : Orderly later changed) (quiet : ∀ stream, ¬ changed.Gathers stream)
    (sent : ∀ payload ∈ later.sent, payload.Good) : Batched later := by
  obtain ⟨reads, same, released⟩ := releases
  have found := set_found s i flush
  have stored : later.flushes = Function.update (s.set i flush).flushes i (some changed) := by
    rw [flushes]
    exact (congrArg System.flushes set_set).symm
  refine batched.update stored tended distinct orderly ?_ ?_ ?_ ?_ ?_ sent
  · exact fun stream _ there => (reads stream there).2
  · exact fun stream _ there none _ => same stream there (none flush found)
  · exact fun stream gathers => absurd gathers (quiet stream)
  · intro stored stream there gathers _ present
    rw [found] at there
    cases there
    exact released stream present gathers
  · exact fun stream there none => absurd (reads stream there).1 none

theorem Orderly.idle (events : flush.events = []) (running : flush.phase.sending = false)
    (held : ∀ stream record, flush.phase.stream = some stream → flush.phase.record = some record →
      (s.read stream).named record.names = true) : Orderly s flush := by
  have none : flush.timestamps = [] := by
    unfold Flush.timestamps
    rw [events]
    rfl
  refine ⟨?_, held, fun _ _ _ some => absurd events some, by rw [events]; exact Nat.zero_le _, ?_, ?_, ?_⟩
  · intro _ _ event member
    rw [events] at member
    cases member
  · intro event member
    rw [events] at member
    cases member
  · intro time member
    rw [none] at member
    cases member
  · intro _ _ _ waits
    rw [waits] at running
    cases running

private theorem afterSend_batched (batched : Batched (s.set i flush)) (releases : Releases s flush later)
    (flushes : later.flushes = s.flushes) (distinct : later.Distinct) (sorted : Flush Object) (sent : Bool)
    (tended : (afterSend later i sorted sent point).Tended) (good : ∀ payload ∈ later.sent, payload.Good)
    (held : ∀ stream record, point.stream = some stream → point.record = some record →
      (later.read stream).named record.names = true) : Batched (afterSend later i sorted sent point) := by
  have set (place : Flush Object) (events : place.events = []) (running : place.phase.sending = false)
      (names : ∀ stream record, place.phase.stream = some stream → place.phase.record = some record →
        (later.read stream).named record.names = true) (tended : (later.set i place).Tended) :
      Batched (later.set i place) := by
    have stored : (later.set i place).flushes = Function.update s.flushes i (some place) := by
      rw [← flushes]
      rfl
    have orderly : Orderly (later.set i place) place := Orderly.idle events running names
    exact batched.release ⟨releases.reads, releases.same, releases.released⟩ stored tended distinct orderly
      (fun _ gathers => gathers.1 events) good
  unfold afterSend at tended ⊢
  split at tended
  · exact set _ rfl rfl held tended
  · exact set _ rfl rfl nofun tended
  · exact set _ rfl rfl nofun tended

variable {address stream : Nat} {change : LogStream → LogStream} {record : Record Object}

private theorem tended_has (tended : s.Tended) (found : s.flushes i = some flush) (filled : flush.events ≠ [])
    (current : flush.currentStream = some address) : s.Has address := by
  obtain ⟨stream, same, present⟩ := (tended i flush found).pending filled
  rw [current] at same
  cases same
  exact present

private theorem modify_has (stays : ∀ stream, (change stream).address = stream.address) (address : Nat)
    (present : (s.modify address change).Has stream) : s.Has stream := by
  obtain ⟨logStream, member, same⟩ := present
  obtain ⟨before, inside, rfl⟩ := mem_map.mp member
  refine ⟨before, inside, ?_⟩
  rw [← same]
  split
  · exact (stays before).symm
  · rfl

def Point.Named (s : System Object) (point : Point Object) : Prop :=
  ∀ stream record, point.stream = some stream → point.record = some record → (s.read stream).named record.names = true

theorem Point.named_of (named : (s.read stream).named record.names = true) :
    (Point.adding stream record).Named s ∧ (record.behind stream).Named s := by
  refine ⟨?_, ?_⟩ <;>
  · intro other one same equal
    cases same
    cases equal
    exact named

private theorem has_some (present : s.Has stream) (other : Nat) (same : some stream = some other) : s.Has other := by
  cases same
  exact present

theorem Point.Named.modify (stays : ∀ stream, (change stream).address = stream.address)
    (names : ∀ stream, (change stream).names = stream.names) (present : s.Has address) (named : point.Named s) :
    point.Named (s.modify address change) := by
  intro stream record holds held
  have before := named stream record holds held
  unfold LogStream.named at before ⊢
  rw [read_modify stays present]
  split
  next equal =>
    rw [names, ← equal]
    exact before
  · exact before

private theorem sendLogEvents_batched (tended : s.Tended) (batched : Batched (s.set i flush))
    (running : flush.phase.sending = false) (held : ∀ stream, point.stream = some stream → s.Has stream)
    (named : point.Named s) : Batched (sendLogEvents now s i flush point) := by
  have found := set_found s i flush
  have pending := (batched.tended i flush found).pending
  have ends : (sendLogEvents now s i flush point).Tended := sendLogEvents_tended now tended pending held
  obtain ⟨sources, _, _, few, close, dated, _⟩ := batched.orderly i flush found
  unfold sendLogEvents at ends ⊢
  split at ends
  next nothing =>
    rw [if_pos nothing]
    exact afterSend_batched batched (.idle (fun _ gathers => gathers.1 nothing) rfl) rfl batched.distinct flush _ ends
      batched.sent named
  next filled =>
    rw [if_neg filled]
    obtain ⟨address, current, present⟩ := pending filled
    have present : s.Has address := present
    have gathers : flush.Gathers address := ⟨filled, current, running⟩
    have only : ∀ stream, flush.Gathers stream → stream = address := by
      rintro stream ⟨_, name, _⟩
      rw [current] at name
      exact (Option.some.inj name).symm
    have distinct : (s.modify address clearTimeSpan).Distinct := by
      have addresses := addresses_modify clearTimeSpan_address s address
      have before := batched.distinct
      unfold System.Distinct at before ⊢
      rw [addresses]
      exact before
    simp only [current] at ends ⊢
    split at ends
    next unwritten =>
      have releases : Releases s flush (s.modify address clearTimeSpan) :=
        .clear gathers only (fun _ => modify_has clearTimeSpan_address address) (read_modify clearTimeSpan_address present)
          rfl (clearTimeSpan_spans _)
      exact afterSend_batched batched releases rfl distinct _ _ ends batched.sent
        (named.modify clearTimeSpan_address (fun _ => rfl) present)
    next text written =>
      have there : (s.modify address clearTimeSpan).Has address := has_modify clearTimeSpan_address address present
      have reads (stream : Nat) : ((s.modify address clearTimeSpan).modify address (renewExpiration now)).read stream =
          if stream = address then renewExpiration now (clearTimeSpan (s.read address)) else s.read stream := by
        rw [read_modify (renewExpiration_address now) there, read_modify clearTimeSpan_address present, if_pos rfl,
          read_modify clearTimeSpan_address present]
        split
        · rfl
        · rfl
      have has (stream : Nat)
          (member : ((s.modify address clearTimeSpan).modify address (renewExpiration now)).Has stream) : s.Has stream :=
        modify_has clearTimeSpan_address address (modify_has (renewExpiration_address now) address member)
      have named : point.Named ((s.modify address clearTimeSpan).modify address (renewExpiration now)) :=
        (named.modify clearTimeSpan_address (fun _ => rfl) present).modify (renewExpiration_address now) (fun _ => rfl) there
      have good : Payload.Good { names := (s.read address).names, events := sortEvents flush.events, text } := by
        have perm := sortEvents_perm flush.events
        refine ⟨?_, by rw [perm.length_eq]; exact few, sortEvents_sorted _, ?_, written, putPayload_short written⟩
        · exact fun event member => sources address current event (perm.mem_iff.mp member)
        · exact fun event member other inside => close event (perm.mem_iff.mp member) other (perm.mem_iff.mp inside)
      have releases := @Releases.clear _ s _ flush address _ gathers only has reads rfl (clearTimeSpan_spans (s.read address))
      refine batched.release ⟨releases.reads, releases.same, releases.released⟩ rfl ends ?_ ?_ ?_ ?_
      · have addresses := addresses_modify (renewExpiration_address now) (s.modify address clearTimeSpan) address
        unfold System.Distinct at distinct ⊢
        exact addresses ▸ distinct
      · refine ⟨?_, named, nofun, by rw [(sortEvents_perm _).length_eq]; exact few, good.close, ?_, ?_⟩
        · intro stream name event member
          cases name
          have source := good.source event member
          have same := congrArg LogStream.names (reads address)
          rw [if_pos rfl] at same
          exact (congrArg (event.source.same ·) same).trans source
        · intro time member
          apply dated
          exact ((sortEvents_perm flush.events).map CwEvent.timestamp).mem_iff.mp member
        · intro retry payload place waits
          cases waits
          exact good
      · rintro stream ⟨_, _, waits⟩
        cases waits
      · intro payload member
        cases mem_append.mp member with
        | inl before => exact batched.sent payload before
        | inr new =>
          obtain rfl := mem_singleton.mp new
          exact good

/-! ### Events -/

private theorem goOn_batched (batched : Batched (s.set i flush)) (tended : s.Tended)
    (running : flush.phase.sending = false)
    (held : ∀ stream, point.stream = some stream → s.Has stream) (named : point.Named s)
    (settled : ∀ stream record, point = .adding stream record → flush.events ≠ [] →
      flush.currentStream = some stream) : Batched (s.set i (flush.goOn point)) := by
  have pending := (batched.tended i flush (set_found s i flush)).pending
  have tended : (s.set i (flush.goOn point)).Tended := tended.set (served_goOn pending held)
  apply batched.relabel tended rfl (fun _ => rfl) running rfl named
  intro stream record place some
  cases place
  exact settled stream record rfl some

private theorem fail_batched (batched : Batched (s.set i flush)) (tended : s.Tended)
    (running : flush.phase.sending = false) :
    Batched (s.set i flush.fail) := by
  have pending := (batched.tended i flush (set_found s i flush)).pending
  exact batched.relabel (tended.set (served_fail pending)) rfl (fun _ => rfl) running rfl nofun nofun

def Alone (s : System Object) (i : Nat) (stream : Nat) : Prop :=
  ∀ j other, j ≠ i → s.flushes j = some other → ¬ other.Gathers stream

private theorem spans_pending {stream : Nat} (spanned : Spanned s) (found : s.flushes i = some flush)
    (running : flush.phase.sending = false) (settled : flush.events ≠ [] → flush.currentStream = some stream)
    (present : s.Has stream) (alone : Alone s i stream) : (s.read stream).Spans flush.timestamps := by
  by_cases filled : flush.events = []
  · have none : flush.timestamps = [] := by
      unfold Flush.timestamps
      rw [filled]
      rfl
    rw [none]
    apply spanned.clear stream present
    intro j other there gathers
    by_cases equal : j = i
    · subst equal
      rw [found] at there
      cases there
      exact gathers.1 filled
    · exact alone j other equal there gathers
  · exact spanned.right i flush stream found ⟨filled, settled filled, running⟩

def Flush.push (flush : Flush Object) (bytes : Nat) (event : CwEvent) : Flush Object :=
  { flush with dataSize := flush.dataSize + bytes, events := flush.events ++ [event] }

private theorem push_batched {record : Record Object} {stream bytes : Nat} {event : CwEvent} (tended : s.Tended)
    (batched : Batched (s.set i flush)) (phase : flush.phase = .running (.adding stream record))
    (current : flush.currentStream = some stream) (present : s.Has stream)
    (room : flush.events.length < maxEventsPerPut) (time : event.timestamp ≠ 0)
    (source : (s.read stream).named event.source = true) (alone : Alone s i stream)
    (short : checkStreamTimeSpan (s.read stream) event.timestamp = true) :
    (s.modify stream (setStreamTimeSpan event.timestamp)).Tended ∧
      Batched ((s.modify stream (setStreamTimeSpan event.timestamp)).set i (flush.push bytes event)) := by
  have running : flush.phase.sending = false := by rw [phase]; rfl
  have found := set_found s i flush
  have orderly := batched.orderly i flush found
  have stays := setStreamTimeSpan_address event.timestamp
  have aloneSet : Alone (s.set i flush) i stream := by
    intro j other differs there
    apply alone j other differs
    change Function.update s.flushes i (some flush) j = some other at there
    rwa [update_of_ne differs] at there
  have spans : (s.read stream).Spans flush.timestamps :=
    @spans_pending _ (s.set i flush) flush i stream batched.spanned found running (fun _ => current) present aloneSet
  have close := checkStreamTimeSpan_close spans orderly.dated short
  have later : (s.modify stream (setStreamTimeSpan event.timestamp)).Tended := tended.mono rfl fun _ => has_modify stays _
  have served : Served (s.modify stream (setStreamTimeSpan event.timestamp)).Has (flush.push bytes event) := by
    constructor
    · exact fun _ => ⟨stream, current, has_modify stays _ present⟩
    · intro other holds
      change flush.phase.stream = some other at holds
      rw [phase] at holds
      cases holds
      exact has_modify stays _ present
  have names (other : Nat) : ((s.modify stream (setStreamTimeSpan event.timestamp)).read other).names = (s.read other).names := by
    rw [read_modify stays present]
    split
    next equal => rw [equal]; rfl
    · rfl
  have gathers : (flush.push bytes event).Gathers stream := ⟨by simp [Flush.push], current, running⟩
  have timestamps : (flush.push bytes event).timestamps = flush.timestamps ++ [event.timestamp] := by
    simp [Flush.timestamps, Flush.push]
  have distinct : ((s.modify stream (setStreamTimeSpan event.timestamp)).set i (flush.push bytes event)).Distinct := by
    have addresses := addresses_modify stays s stream
    have before := batched.distinct
    unfold System.Distinct at before ⊢
    exact addresses ▸ before
  refine ⟨later, ?_⟩
  have stored : ((s.modify stream (setStreamTimeSpan event.timestamp)).set i (flush.push bytes event)).flushes =
      Function.update (s.set i flush).flushes i (some (flush.push bytes event)) :=
    (congrArg System.flushes set_set).symm
  refine batched.update stored (later.set served) distinct ?_ ?_ ?_ ?_ ?_ ?_ batched.sent
  · refine ⟨?_, ?_, ?_, ?_, ?_, ?_, ?_⟩
    · intro other name one member
      have same : other = stream := Option.some.inj (name.symm.trans current)
      subst same
      refine (congrArg (one.source.same ·) (names other)).trans ?_
      cases mem_append.mp member with
      | inl old => exact orderly.sources other current one old
      | inr new =>
        obtain rfl := mem_singleton.mp new
        exact source
    · intro other one holds held
      exact (congrArg (one.names.same ·) (names other)).trans (orderly.held other one holds held)
    · intro other one place _
      have same : Phase.running (.adding stream record) = .running (.adding other one) := phase.symm.trans place
      cases same
      exact current
    · simp only [Flush.push, length_append, length_singleton]
      exact room
    · intro one member other inside
      have near (old : CwEvent) (inside : old ∈ flush.events) : old.timestamp < event.timestamp + oneDayInMilliseconds ∧
          event.timestamp < old.timestamp + oneDayInMilliseconds :=
        close old.timestamp (mem_map_of_mem inside)
      cases mem_append.mp member with
      | inl old =>
        cases mem_append.mp inside with
        | inl oldToo => exact orderly.close one old other oldToo
        | inr new =>
          obtain rfl := mem_singleton.mp new
          exact (near one old).1
      | inr new =>
        obtain rfl := mem_singleton.mp new
        cases mem_append.mp inside with
        | inl old => exact (near other old).2
        | inr newToo =>
          obtain rfl := mem_singleton.mp newToo
          exact Nat.lt_add_of_pos_right (by decide)
    · intro one member
      rw [timestamps] at member
      cases mem_append.mp member with
      | inl old => exact orderly.dated one old
      | inr new =>
        obtain rfl := mem_singleton.mp new
        exact time
    · intro retry payload place waits
      have same : Phase.running (.adding stream record) = .putting retry payload place := phase.symm.trans waits
      cases same
  · exact fun other _ _ => names other
  · intro other _ _ _ none times before
    have differs : other ≠ stream := by
      rintro rfl
      exact none gathers
    have same : (s.modify stream (setStreamTimeSpan event.timestamp)).read other = s.read other := by
      rw [read_modify stays present, if_neg differs]
    exact same ▸ before
  · intro other gathersOther
    have equal : other = stream := Option.some.inj (gathersOther.2.1.symm.trans current)
    subst equal
    refine ⟨?_, aloneSet⟩
    have changed : (s.modify other (setStreamTimeSpan event.timestamp)).read other =
        setStreamTimeSpan event.timestamp (s.read other) := by
      rw [read_modify stays present, if_pos rfl]
    rw [timestamps]
    exact changed ▸ setStreamTimeSpan_spans spans orderly.dated event.timestamp
  · intro old other there gathersOld none _
    rw [found] at there
    cases there
    have equal : other = stream := Option.some.inj (gathersOld.2.1.symm.trans current)
    subst equal
    exact absurd gathers none
  · exact fun other has none => absurd (modify_has stays stream has) none

private theorem keepEvent_batched (json : Bytes) (tended : s.Tended)
    (batched : Batched (s.set i flush)) (phase : flush.phase = .running (.adding stream record))
    (current : flush.currentStream = some stream) (present : s.Has stream)
    (room : flush.events.length < maxEventsPerPut) (dated : record.timestamp ≠ 0) (alone : Alone s i stream) :
    Batched (keepEvent now s i flush (s.read stream) record json) := by
  have running : flush.phase.sending = false := by rw [phase]; rfl
  have address := read_address s stream
  have named : (s.read stream).named record.names = true :=
    (batched.orderly i flush (set_found s i flush)).held stream record (by rw [phase]; rfl) (by rw [phase]; rfl)
  have held := has_some present
  obtain ⟨namedRetry, namedBehind⟩ := Point.named_of named
  unfold keepEvent
  simp only [address]
  split
  · exact sendLogEvents_batched now tended batched running held namedRetry
  next short =>
    split
    · split
      · exact goOn_batched batched tended running held namedBehind nofun
      · exact sendLogEvents_batched now tended batched running held namedRetry
    · have close : checkStreamTimeSpan (s.read stream) record.timestamp = true := by simpa using short
      obtain ⟨later, pushed⟩ := @push_batched _ s flush i record stream (json.length + perEventLen)
        { json, timestamp := record.timestamp, source := record.names } tended batched phase current present room dated
        named alone close
      have stays := setStreamTimeSpan_address record.timestamp
      have heldLater := has_some (has_modify stays stream present)
      have namedLater := namedBehind.modify stays (fun _ => rfl) present
      split
      · exact sendLogEvents_batched now later pushed running heldLater namedLater
      · exact goOn_batched pushed later running heldLater namedLater nofun

private theorem attach_batched (tended : s.Tended) (batched : Batched (s.set i flush))
    (phase : flush.phase = .running (.adding stream record)) (present : s.Has stream) (tmpBufOffset : Nat) :
    (flush.attach s stream).phase = flush.phase ∧
      Batched (s.set i { flush.attach s stream with tmpBufOffset }) ∧ Batched (s.set i (flush.attach s stream)) := by
  have running : flush.phase.sending = false := by rw [phase]; rfl
  have orderly := batched.orderly i flush (set_found s i flush)
  have samePhase : (flush.attach s stream).phase = flush.phase := by
    unfold Flush.attach
    simp only
    split
    · rfl
    · rfl
  have relabelled (changed : Flush Object) (events : changed.events = flush.events)
      (current : changed.currentStream = some stream) (place : changed.phase = flush.phase) :
      Batched (s.set i changed) := by
    have served : Served s.Has changed := by
      refine ⟨fun _ => ⟨stream, current, present⟩, ?_⟩
      intro other holds
      rw [place, phase] at holds
      cases holds
      exact present
    apply batched.relabel (tended.set served) events _ running (by rw [place]; exact running)
    · rw [place]
      exact orderly.held
    · intro other one adds _
      rw [place, phase] at adds
      cases adds
      exact current
    · intro filled
      rw [current, orderly.settled stream record phase filled]
  have events := attach_events s stream flush
  have current := attach_current s stream flush
  exact ⟨samePhase, relabelled _ events current samePhase, relabelled _ events current samePhase⟩

private theorem retryAddEvent_batched (object : Object) (tended : s.Tended)
    (batched : Batched (s.set i flush)) (phase : flush.phase = .running (.adding stream record))
    (present : s.Has stream) (room : flush.events.length < maxEventsPerPut) (dated : record.timestamp ≠ 0)
    (alone : Alone s i stream) : Batched (retryAddEvent formats logKey now s i flush stream record object) := by
  obtain ⟨same, _, attached⟩ := attach_batched tended batched phase present 0
  have place : (flush.attach s stream).phase = .running (.adding stream record) := same.trans phase
  have running : (flush.attach s stream).phase.sending = false := by rw [place]; rfl
  have named : (s.read stream).named record.names = true :=
    (batched.orderly i flush (set_found s i flush)).held stream record (by rw [phase]; rfl) (by rw [phase]; rfl)
  have held := has_some present
  obtain ⟨namedRetry, namedBehind⟩ := Point.named_of named
  unfold retryAddEvent
  simp only
  split
  · exact fail_batched attached tended running
  · split
    · exact goOn_batched attached tended running held namedBehind nofun
    · exact sendLogEvents_batched now tended attached running held namedRetry
  · exact goOn_batched attached tended running held namedBehind nofun
  next json tmpBufOffset _ =>
    obtain ⟨_, moved, _⟩ := attach_batched tended batched phase present tmpBufOffset
    apply keepEvent_batched now json tended moved place (attach_current s stream flush) present _ dated alone
    exact (congrArg List.length (attach_events s stream flush)).trans_lt room

theorem set_self (found : s.flushes i = some flush) : s.set i flush = s := by
  have same : Function.update s.flushes i (some flush) = s.flushes := by
    rw [← found]
    exact update_eq_self i s.flushes
  unfold System.set
  rw [same]

private theorem gathers_has (tended : s.Tended) (found : s.flushes i = some flush) (gathers : flush.Gathers stream) :
    s.Has stream :=
  tended_has tended found gathers.1 gathers.2.1

section

variable (batched : Batched s) (flushes : later.flushes = s.flushes) (sent : later.sent = s.sent)
include batched flushes sent

theorem Batched.restock (read : ∀ {address}, s.Has address → later.Has address → later.read address = s.read address)
    (new : ∀ address, later.Has address → s.Has address ∨ (later.read address).Spans []) (tended : later.Tended)
    (distinct : later.Distinct) : Batched later := by
  have before {j : Nat} {other : Flush Object} (there : later.flushes j = some other) : s.flushes j = some other := by
    rw [← flushes]
    exact there
  refine ⟨tended, distinct, ?_, ⟨?_, ?_, ?_⟩, by rw [sent]; exact batched.sent⟩
  · intro j other there
    exact (batched.orderly j other (before there)).mono (batched.tended j other (before there)) (tended j other there)
      fun _ present left => by rw [read present left]
  · rw [flushes]
    exact batched.spanned.alone
  · intro j other address there gathers
    rw [read (gathers_has batched.tended (before there) gathers) (gathers_has tended there gathers)]
    exact batched.spanned.right j other address (before there) gathers
  · intro address present nobody
    rw [flushes] at nobody
    cases new address present with
    | inl old =>
      rw [read old present]
      exact batched.spanned.clear address old nobody
    | inr unset => exact unset

theorem Batched.fewer (streams : later.streams.Sublist s.streams) (tended : later.Tended) (distinct : later.Distinct) :
    Batched later := by
  refine batched.restock flushes sent ?_ ?_ tended distinct
  · intro address _ left
    exact read_sublist batched.distinct.1 streams left
  · intro address left
    obtain ⟨logStream, member, same⟩ := left
    exact .inl ⟨logStream, streams.subset member, same⟩

end

theorem Batched.create (batched : Batched s) {stream : LogStream} (flushes : later.flushes = s.flushes)
    (sent : later.sent = s.sent) (streams : later.streams = s.streams ++ [stream]) (unset : stream.Spans [])
    (tended : later.Tended) (distinct : later.Distinct) : Batched later := by
  refine batched.restock flushes sent (fun present _ => read_append present streams) ?_ tended distinct
  intro address present
  obtain ⟨logStream, member, same⟩ := present
  have inside := member
  rw [streams] at member
  cases mem_append.mp member with
  | inl before => exact .inl ⟨logStream, before, same⟩
  | inr new =>
    rw [← same, read_of_mem distinct.1 inside, mem_singleton.mp new]
    exact .inr unset

private theorem same_self (names : Names) : names.same names = true := by
  unfold Names.same CString.strcmp
  simp [CString.compareBytes_eq_iff]

section

variable (batched : Batched s) (found : s.flushes i = some flush)
include batched found

private theorem nextRecord_batched {now : Int} (phase : flush.phase = .running .next)
    (spared : ∀ record records, flush.records = record :: records → ∀ stream ∈ passed record.names s.streams,
      ∀ j other, s.flushes j = some other → other.Needs stream.address → now ≤ stream.expiration) :
    Batched (nextRecord now s i flush) := by
  have running : flush.phase.sending = false := by rw [phase]; rfl
  have tended := nextRecord_tended batched.tended (batched.tended i flush found).pending found spared
  unfold nextRecord at tended ⊢
  split at tended
  · exact sendLogEvents_batched now batched.tended ((set_self found).symm ▸ batched) running nofun nofun
  next record records chunk =>
    have left := lookup_tended batched.tended (spared record records chunk)
    have sublist := lookupStream_sublist now record.names s.streams
    have distinct : ({ s with streams := (lookupStream now record.names s.streams).2 } : System Object).Distinct :=
      Shrinks.distinct ⟨sublist.map _, rfl⟩ batched.distinct
    have destroyed : Batched { s with streams := (lookupStream now record.names s.streams).2 } :=
      batched.fewer rfl rfl sublist left distinct
    have stored := set_self (s := { s with streams := (lookupStream now record.names s.streams).2 }) found
    rw [← stored] at destroyed
    simp only at tended ⊢
    split at tended
    next stream same =>
      apply destroyed.relabel tended rfl (fun _ => rfl) running rfl _ nofun
      intro other one holds held
      cases holds
      cases held
      obtain ⟨logStream, member, rfl, named⟩ := lookupStream_found same
      rw [← read_of_mem distinct.1 member] at named
      exact named
    · have waits : Batched (System.set { s with streams := (lookupStream now record.names s.streams).2 } i
          { flush with records, phase := .creating record }) :=
        destroyed.relabel tended rfl (fun _ => rfl) running rfl nofun nofun
      exact waits.fewer rfl rfl (.refl _) tended waits.distinct

private theorem addEvent_batched {now : Int} (phase : flush.phase = .running (.entering stream record)) :
    Batched (addEvent now s i flush stream record) := by
  have running : flush.phase.sending = false := by rw [phase]; rfl
  have present : s.Has stream := (batched.tended i flush found).held stream (by rw [phase]; rfl)
  have stored : Batched (s.set i flush) := (set_self found).symm ▸ batched
  have held := has_some present
  obtain ⟨named, _⟩ := Point.named_of
    ((batched.orderly i flush found).held stream record (by rw [phase]; rfl) (by rw [phase]; rfl))
  unfold addEvent
  split
  · exact goOn_batched stored batched.tended running nofun nofun nofun
  · split
    · exact sendLogEvents_batched now batched.tended stored running held named
    next already =>
      apply @goOn_batched _ s flush (.adding stream record) i stored batched.tended running held named
      intro other one place filled
      cases place
      rw [not_and_or, not_not, not_not] at already
      exact already.resolve_left filled

private theorem created_batched (phase : flush.phase = .creating record)
    (distinct : (created now s i flush record).Distinct) :
    Batched (created now s i flush record) := by
  have running : flush.phase.sending = false := by rw [phase]; rfl
  let stream : LogStream := {
    address := s.fresh
    names := record.names
    expiration := now + fourHoursInSeconds
    oldestEvent := 0
    newestEvent := 0 }
  let grown : System Object := { s with streams := s.streams ++ [stream], fresh := s.fresh + 1, current := some i }
  have grownTended : grown.Tended := batched.tended.mono rfl fun _ present => has_append present _
  have grownBatched : Batched grown := batched.create rfl rfl rfl (.inl ⟨rfl, rfl, rfl⟩) grownTended distinct
  have stored : grown.flushes i = some flush := found
  have read : grown.read s.fresh = stream :=
    read_of_mem distinct.1 (mem_append_right s.streams (mem_singleton_self stream))
  rw [← set_self stored] at grownBatched
  apply goOn_batched grownBatched grownTended running
  · intro other holds
    cases holds
    exact ⟨stream, mem_append_right _ (mem_singleton_self _), rfl⟩
  · intro other one holds held
    cases holds
    cases held
    rw [read]
    exact same_self record.names
  · exact nofun

private theorem replied_batched {retry : Bool} {payload : Payload} (waits : flush.phase = .putting retry payload point)
    (reply : Reply) : Batched (replied s i flush retry payload point reply) := by
  have tended := replied_tended batched.tended found waits reply
  have orderly := batched.orderly i flush found
  have stored : Batched (s.set i flush) := (set_self found).symm ▸ batched
  have quiet : ∀ stream, ¬ flush.Gathers stream := by
    rintro stream ⟨_, _, running⟩
    rw [waits] at running
    cases running
  have named : point.Named s := by
    have held := orderly.held
    rw [waits] at held
    exact held
  have good := orderly.request retry payload point waits
  have resumed (sent : Bool) (tended : (afterSend { s with current := some i } i flush sent point).Tended) :
      Batched (afterSend { s with current := some i } i flush sent point) :=
    @afterSend_batched _ s { s with current := some i } flush point i stored (.idle quiet rfl) rfl batched.distinct flush
      sent tended batched.sent named
  cases reply with
  | ok => exact resumed true tended
  | failed => exact resumed false tended
  | invalid =>
    unfold replied at tended ⊢
    simp only at tended ⊢
    split at tended
    next again =>
      rw [if_pos again]
      refine stored.release (.idle quiet rfl) rfl tended batched.distinct ?_ ?_ ?_
      · refine ⟨orderly.sources, named, nofun, orderly.few, orderly.close, orderly.dated, ?_⟩
        intro one other place same
        cases same
        exact good
      · rintro stream ⟨_, _, running⟩
        cases running
      · intro one member
        cases mem_append.mp member with
        | inl before => exact batched.sent one before
        | inr new =>
          have equal : one = payload := mem_singleton.mp new
          exact equal ▸ good
    next once =>
      rw [if_neg once]
      exact resumed false tended

end

private theorem start_batched (batched : Batched s) (none : s.flushes i = none) (records : List (Record Object)) :
    Batched ({ s with current := some i }.set i (newBuffer records)) := by
  have quiet : ∀ stream, ¬ (newBuffer records).Gathers stream := fun _ gathers => gathers.1 rfl
  have tended : ({ s with current := some i }.set i (newBuffer records)).Tended :=
    System.Tended.set (batched.tended.mono rfl fun _ => id) (Flush.served_idle rfl nofun)
  refine batched.update rfl tended batched.distinct (.idle rfl rfl nofun) ?_ ?_ ?_ ?_ ?_ batched.sent
  · exact fun _ _ _ => rfl
  · exact fun _ _ _ _ _ _ spans => spans
  · exact fun stream gathers => absurd gathers (quiet stream)
  · intro flush stream found
    rw [none] at found
    cases found
  · exact fun _ has none => absurd has none

def Roomy (s : System Object) : Prop :=
  ∀ i flush, s.flushes i = some flush → flush.phase.sending = false → flush.events.length < maxEventsPerPut

theorem Roomy.set (roomy : Roomy s) (room : flush.phase.sending = false → flush.events.length < maxEventsPerPut) :
    Roomy (s.set i flush) := by
  intro j other found running
  change Function.update s.flushes i (some flush) j = some other at found
  rw [update_apply] at found
  split at found
  · cases found
    exact room running
  · exact roomy j other found running

private theorem afterSend_roomy (roomy : Roomy s) (sent : Bool) : Roomy (afterSend s i flush sent point) := by
  have none : ([] : List CwEvent).length < maxEventsPerPut := by decide
  unfold afterSend
  split
  all_goals exact roomy.set fun _ => none

private theorem sendLogEvents_roomy (roomy : Roomy s) : Roomy (sendLogEvents now s i flush point) := by
  unfold sendLogEvents
  split
  · exact afterSend_roomy roomy _
  · simp only
    split
    · exact afterSend_roomy roomy _
    next address _ =>
      have cleared : Roomy (s.modify address clearTimeSpan) := roomy
      split
      · exact afterSend_roomy cleared _
      · have renewed : Roomy ((s.modify address clearTimeSpan).modify address (renewExpiration now)) := roomy
        exact renewed.set nofun

private theorem retryAddEvent_roomy (object : Object) (roomy : Roomy s) (room : flush.events.length < maxEventsPerPut) :
    Roomy (retryAddEvent formats logKey now s i flush stream record object) := by
  have attached : (flush.attach s stream).events.length < maxEventsPerPut :=
    (congrArg List.length (attach_events s stream flush)).trans_lt room
  unfold retryAddEvent
  simp only
  split
  · exact roomy.set fun _ => attached
  · split
    · exact roomy.set fun _ => attached
    · exact sendLogEvents_roomy now roomy
  · exact roomy.set fun _ => attached
  · have spanned : Roomy (s.modify (s.read stream).address (setStreamTimeSpan record.timestamp)) := roomy
    unfold keepEvent
    simp only
    split
    · exact sendLogEvents_roomy now roomy
    · split
      · split
        · exact roomy.set fun _ => attached
        · exact sendLogEvents_roomy now roomy
      · split
        · exact sendLogEvents_roomy now spanned
        next few =>
          apply spanned.set
          intro _
          simp only [Flush.goOn, length_append, length_singleton] at few ⊢
          omega

private theorem turn_roomy (roomy : Roomy s) (room : flush.events.length < maxEventsPerPut) :
    Roomy (turn formats logKey now s i flush point) := by
  cases point with
  | next =>
    simp only [turn]
    unfold nextRecord
    split
    · exact sendLogEvents_roomy now roomy
    next record records _ =>
      have left : Roomy { s with streams := (lookupStream now record.names s.streams).2 } := roomy
      simp only
      split
      · exact left.set fun _ => room
      · exact left.set fun _ => room
  | entering stream record =>
    simp only [turn]
    unfold addEvent
    split
    · exact roomy.set fun _ => room
    · split
      · exact sendLogEvents_roomy now roomy
      · exact roomy.set fun _ => room
  | adding stream record =>
    simp only [turn]
    split
    · exact roomy.set fun _ => room
    · exact retryAddEvent_roomy formats logKey now _ roomy room
  | ended => exact roomy

private theorem step_roomy (event : Event Object) (roomy : Roomy s) : Roomy (step formats logKey event s) := by
  have none : ([] : List CwEvent).length < maxEventsPerPut := by decide
  have resumed (j : Nat) : Roomy { s with current := some j } := roomy
  unfold step
  split
  next now j _ =>
    split
    next flush found =>
      split
      next point runs => exact turn_roomy formats logKey now roomy (roomy j flush found (by rw [runs]; rfl))
      · exact roomy
    · exact roomy
  next j _ _ =>
    split
    · exact (resumed j).set fun _ => none
    · exact roomy
  next j success now _ =>
    split
    next flush found =>
      split
      next record waits =>
        have room := roomy j flush found (by rw [waits]; rfl)
        split
        · apply Roomy.set
          · exact roomy
          · exact fun _ => room
        · exact (resumed j).set fun _ => room
      · exact roomy
    · exact roomy
  next j reply _ =>
    split
    next flush found =>
      split
      next retry payload point waits =>
        cases reply with
        | ok => exact afterSend_roomy (resumed j) true
        | failed => exact afterSend_roomy (resumed j) false
        | invalid =>
          simp only [replied]
          split
          · apply Roomy.set
            · exact roomy
            · exact fun never => by cases never
          · exact afterSend_roomy (resumed j) false
      · exact roomy
    · exact roomy
  · exact roomy

end

def Adds (s : System Object) (i : Nat) (flush : Flush Object) (stream : Nat) (record : Record Object) : Prop :=
  s.current = some i ∧ s.flushes i = some flush ∧ flush.phase = .running (.adding stream record)

/-- Lookups spare what flushes need, no event has the time 0, and none is added for a stream that another flush
gathers for. -/
def Exclusive (s : System Object) (event : Event Object) : Prop :=
  Spares s event ∧
    match event with
    | .turn _ => ∀ i flush stream record, Adds s i flush stream record → record.timestamp ≠ 0 ∧ Alone s i stream
    | _ => True

/-- The steps that are left of `add_event` from `retry_add_event` on. -/
def Flush.left (flush : Flush Object) : Nat :=
  match flush.phase with
  | .running (.adding _ _) => if flush.events = [] then 1 else 4
  | .putting true _ _ => 3
  | .putting false _ _ => 2
  | _ => 0

def Moves (s : System Object) (i : Nat) (flush : Flush Object) : Event Object → Prop
  | .turn _ => s.current = some i ∧ flush.phase.sending = false
  | .replied j _ => j = i ∧ s.current = none ∧ flush.phase.sending = true
  | _ => False

section

variable {s : System Object} {flush : Flush Object} {point : Point Object} {i : Nat}

/-- Each step keeps the batches right. -/
theorem step_batched {event : Event Object} (batched : Batched s) (roomy : Roomy s) (exclusive : Exclusive s event) :
    Batched (step formats logKey event s) := by
  obtain ⟨spares, exclusive⟩ := exclusive
  unfold step
  split
  next now j runs =>
    split
    next flush found =>
      split
      next point phase =>
        cases point with
        | next =>
          apply nextRecord_batched batched found phase
          intro record records chunk
          apply spares
          simp [System.lookingUp, runs, found, phase, chunk]
        | entering stream record => exact addEvent_batched batched found phase
        | adding stream record =>
          have stored : Batched (s.set j flush) := (set_self found).symm ▸ batched
          have running : flush.phase.sending = false := by rw [phase]; rfl
          obtain ⟨dated, alone⟩ := exclusive j flush stream record ⟨runs, found, phase⟩
          simp only [turn]
          split
          · exact goOn_batched stored batched.tended running (fun _ never => by cases never)
              (fun _ _ never => by cases never) fun _ _ never => by cases never
          · have present : s.Has stream := (batched.tended j flush found).held stream (by rw [phase]; rfl)
            exact retryAddEvent_batched formats logKey now _ batched.tended stored phase present
              (roomy j flush found running) dated alone
        | ended => exact batched.fewer rfl rfl (.refl _) batched.tended.wait batched.distinct
      · exact batched
    · exact batched
  next j records _ =>
    split
    next none => exact start_batched batched none records
    · exact batched
  next j success now _ =>
    split
    next flush found =>
      split
      next record waits =>
        split
        · exact created_batched now batched found waits (created_distinct now batched.distinct)
        · have stored : Batched (System.set { s with current := some j } j flush) := by
            have same := @set_self _ { s with current := some j } flush j found
            rw [same]
            exact batched.fewer rfl rfl (.refl _) (batched.tended.mono rfl fun _ => id) batched.distinct
          exact fail_batched stored (batched.tended.mono rfl fun _ => id) (by rw [waits]; rfl)
      · exact batched
    · exact batched
  next j reply _ =>
    split
    next flush found =>
      split
      next retry payload point waits => exact replied_batched batched found waits reply
      · exact batched
    · exact batched
  · exact batched

/-! ### The end of `add_event` -/

private theorem afterSend_left (sent : Bool) :
    ∃ after, (afterSend s i flush sent point).flushes i = some after ∧ after.left ≤ 1 := by
  unfold afterSend
  split
  · refine ⟨_, set_found .., ?_⟩
    unfold Flush.left Flush.goOn resetFlushBuf
    cases point <;> simp
  · exact ⟨_, set_found .., Nat.zero_le 1⟩
  · exact ⟨_, set_found .., Nat.zero_le 1⟩

private theorem sendLogEvents_left (filled : flush.events ≠ []) :
    ∃ after, (sendLogEvents now s i flush point).flushes i = some after ∧ after.left < 4 := by
  have ended {s : System Object} {flush : Flush Object} (sent : Bool) :
      ∃ after, (afterSend s i flush sent point).flushes i = some after ∧ after.left < 4 := by
    obtain ⟨after, found, few⟩ := @afterSend_left _ s flush point i sent
    exact ⟨after, found, by omega⟩
  unfold sendLogEvents
  rw [if_neg filled]
  simp only
  split
  · exact ended _
  · split
    · exact ended _
    · exact ⟨_, set_found .., by simp [Flush.left]⟩

private theorem retryAddEvent_left {stream : Nat} {record : Record Object} (object : Object)
    (spans : (s.read stream).Spans flush.timestamps) :
    ∃ after, (retryAddEvent formats logKey now s i flush stream record object).flushes i = some after ∧
      after.left < if flush.events = [] then 1 else 4 := by
  have events := attach_events s stream flush
  obtain ⟨most, bound, positive, full⟩ : ∃ most, (if flush.events = [] then 1 else 4) = most ∧ 0 < most ∧
      (flush.events ≠ [] → most = 4) := by
    refine ⟨_, rfl, ?_, fun filled => if_neg filled⟩
    split
    · exact Nat.one_pos
    · exact Nat.succ_pos 3
  rw [bound]
  have returned {later : System Object} (place : Flush Object) (none : place.left = 0) :
      ∃ after, (later.set i place).flushes i = some after ∧ after.left < most :=
    ⟨place, set_found .., by omega⟩
  have sends {later : System Object} {place : Flush Object} {point : Point Object} (filled : flush.events ≠ [])
      (pending : place.events ≠ []) :
      ∃ after, (sendLogEvents now later i place point).flushes i = some after ∧ after.left < most := by
    rw [full filled]
    exact sendLogEvents_left now pending
  unfold retryAddEvent
  simp only [events]
  split
  · exact returned _ rfl
  · split
    · exact returned _ rfl
    next filled => exact sends filled (by rw [events]; exact filled)
  · exact returned _ rfl
  · unfold keepEvent
    simp only
    split
    next far =>
      -- with nothing pending the stream has no span, so that nothing is too far
      have filled : flush.events ≠ [] := by
        intro nothing
        have none : flush.timestamps = [] := by rw [Flush.timestamps, nothing]; rfl
        rw [none] at spans
        rw [checkStreamTimeSpan_unset spans] at far
        cases far
      exact sends filled filled
    · split
      · split
        · exact returned _ rfl
        next filled => exact sends filled filled
      · split
        next full =>
          have filled : flush.events ≠ [] := by
            intro nothing
            rw [nothing] at full
            cases full
          exact sends filled (by simp)
        · exact returned _ rfl

private theorem step_left {event : Event Object} (batched : Batched s) (exclusive : Exclusive s event)
    (found : s.flushes i = some flush) (left : flush.left ≠ 0) (moves : Moves s i flush event) :
    ∃ after, (step formats logKey event s).flushes i = some after ∧ after.left < flush.left := by
  cases event with
  | start | created => cases moves
  | turn now =>
    obtain ⟨runs, running⟩ := moves
    cases phase : flush.phase with
    | creating | putting =>
      unfold Flush.left at left
      rw [phase] at left running
      first
        | exact absurd rfl left
        | cases running
    | running point =>
      cases point with
      | next | entering | ended =>
        unfold Flush.left at left
        rw [phase] at left
        exact absurd rfl left
      | adding stream record =>
        obtain ⟨_, alone⟩ := exclusive.2 i flush stream record ⟨runs, found, phase⟩
        have present : s.Has stream := (batched.tended i flush found).held stream (by rw [phase]; rfl)
        have spans := spans_pending batched.spanned found running
          ((batched.orderly i flush found).settled stream record phase) present alone
        have bound : flush.left = if flush.events = [] then 1 else 4 := by
          unfold Flush.left
          rw [phase]
        simp only [step, runs, found, phase, turn]
        cases values : record.values with
        | nil => exact ⟨_, set_found .., Nat.pos_of_ne_zero left⟩
        | cons object more =>
          rw [bound]
          exact retryAddEvent_left formats logKey now object spans
  | replied j reply =>
    obtain ⟨rfl, waits, sending⟩ := moves
    cases phase : flush.phase with
    | creating | running =>
      rw [phase] at sending
      cases sending
    | putting retry payload point =>
      have ended (sent : Bool) : ∃ after,
          (afterSend { s with current := some j } j flush sent point).flushes j = some after ∧
            after.left < flush.left := by
        obtain ⟨after, known, few⟩ := @afterSend_left _ { s with current := some j } flush point j sent
        refine ⟨after, known, Nat.lt_of_le_of_lt few ?_⟩
        unfold Flush.left
        rw [phase]
        cases retry <;> simp
      simp only [step, waits, found, phase]
      cases reply with
      | ok => exact ended true
      | failed => exact ended false
      | invalid =>
        simp only [replied]
        split
        next again =>
          subst again
          refine ⟨_, set_found .., ?_⟩
          unfold Flush.left
          simp [phase]
        · exact ended false

end

private theorem start_empty : Batched (System.start : System Object) := by
  refine ⟨?_, ⟨nodup_nil, ?_⟩, ?_, ⟨?_, ?_, ?_⟩, ?_⟩
  · intro i flush found
    cases found
  · intro address member
    cases member
  · intro i flush found
    cases found
  · intro i j flush other stream found
    cases found
  · intro i flush stream found
    cases found
  · rintro stream ⟨logStream, member, _⟩
    cases member
  · intro payload member
    cases member

/-- An event is tested against the span of what its flush has pending for the stream, and each step brings
`add_event` nearer to its end. -/
def Sound (formats : Formats Object) (logKey : Bool) (s : System Object) (event : Event Object) : Prop :=
  ∀ i flush, s.flushes i = some flush → Moves s i flush event →
    (∀ stream record, flush.phase = .running (.adding stream record) →
      (flush.events ≠ [] → flush.currentStream = some stream) ∧ s.Has stream ∧
        (s.read stream).Spans flush.timestamps) ∧
      (flush.left ≠ 0 → ∃ after, (step formats logKey event s).flushes i = some after ∧ after.left < flush.left)

/-- In a run whose steps are exclusive, every request is good and every exclusive step is sound. -/
theorem batches_of_exclusive (formats : Formats Object) (logKey : Bool) {s : System Object}
    (run : Runs.Path (step formats logKey) Exclusive System.start s) :
    (∀ payload ∈ s.sent, payload.Good) ∧ ∀ event, Exclusive s event → Sound formats logKey s event := by
  obtain ⟨batched, roomy⟩ : Batched s ∧ Roomy s := by
    apply run.invariant fun s => Batched s ∧ Roomy s
    · exact ⟨start_empty, fun i flush found => nomatch found⟩
    · intro before event invariant exclusive
      exact ⟨step_batched formats logKey invariant.1 invariant.2 exclusive, step_roomy formats logKey event invariant.2⟩
  refine ⟨batched.sent, ?_⟩
  intro event exclusive i flush found moves
  refine ⟨?_, fun left => step_left formats logKey batched exclusive found left moves⟩
  intro stream record phase
  have present : s.Has stream := (batched.tended i flush found).held stream (by rw [phase]; rfl)
  have settled := (batched.orderly i flush found).settled stream record phase
  refine ⟨settled, present, ?_⟩
  cases event with
  | start | created => cases moves
  | replied j reply =>
    have sending := moves.2.2
    rw [phase] at sending
    cases sending
  | turn now =>
    obtain ⟨_, alone⟩ := exclusive.2 i flush stream record ⟨moves.1, found, phase⟩
    exact spans_pending batched.spanned found moves.2 settled present alone

theorem twoFlushes_good : (Runs.after (step sampleFormats false) System.start twoFlushes).sent.length = 1 ∧
      ∀ payload ∈ (Runs.after (step sampleFormats false) System.start twoFlushes).sent, payload.Good := by
  refine ⟨by decide +kernel, ?_⟩
  apply (batches_of_exclusive sampleFormats false _).1
  apply path_after
  refine ⟨⟨trivial, trivial⟩, ⟨?_, ?_⟩, ⟨trivial, trivial⟩, ⟨?_, ?_⟩, ⟨trivial, trivial⟩, ⟨?_, ?_⟩, ⟨?_, ?_⟩, ⟨?_, ?_⟩,
    ⟨?_, ?_⟩, trivial⟩
  any_goals exact spares_unexpired (by decide +kernel)
  all_goals
    rintro i flush stream record ⟨runs, found, phase⟩
    cases runs
    cases found
    cases phase
  -- only one turn adds an event
  refine ⟨by decide, fun j other differs there gathers => ?_⟩
  match j with
  | 0 => exact differs rfl
  | 1 =>
    cases there
    exact gathers.1 rfl
  | j + 2 => cases there
def sharedStream : List (Event Unit) :=
  [.start 0 [sampleRecord "a" 1, sampleRecord "b" 1], .turn 0, .created 0 true 0, .turn 0, .turn 0, .turn 0, .turn 0,
    .start 1 [sampleRecord "a" 172801], .turn 0, .turn 0]

theorem sharedStream_unsound : ¬ ∀ s, Runs.Path (step sampleFormats false) anyEvent System.start s →
      (∀ payload ∈ s.sent, payload.Good) ∧ ∀ event, Sound sampleFormats false s event := by
  intro always
  have path := reached (step sampleFormats false) System.start sharedStream
  have left : ((Runs.after (step sampleFormats false) System.start sharedStream).flushes 1).map Flush.left = some 1 := by
    decide +kernel
  have again : ((step sampleFormats false (.turn 0)
      (Runs.after (step sampleFormats false) System.start sharedStream)).flushes 1).map Flush.left = some 1 := by
    decide +kernel
  have runs : (Runs.after (step sampleFormats false) System.start sharedStream).current = some 1 := by decide +kernel
  have sending : ((Runs.after (step sampleFormats false) System.start sharedStream).flushes 1).map
      (fun flush => flush.phase.sending) = some false := by decide +kernel
  obtain ⟨flush, found, one⟩ := map_eq_some_iff.mp left
  rw [found] at sending
  have sound := (always _ path).2 (.turn 0) 1 flush found ⟨runs, Option.some.inj sending⟩
  obtain ⟨after, known, fewer⟩ := sound.2 (by rw [one]; decide)
  rw [known] at again
  have stays : after.left = 1 := Option.some.inj again
  omega

end FluentBit.CloudWatch
