import FluentBit.Multiline.Delivery
import Mathlib.Data.List.Nodup

/-! Streams that have a parser of their own: the others of the group refuse all of their
lines. What an append does to its stream is then a function of the groups of the stream,
and it does not matter which stream a parser was used for last. -/

set_option autoImplicit false

namespace FluentBit.Multiline

open List Bool
open Ml

/-! ### A stream on its own -/

section

variable (config : Config) (ins : Ins) (now : Nat)

def flushGroups (groups : List StreamGroup) : List StreamGroup × List Parcel :=
  (groups.map fun group => (flushStreamGroup config.hash (config.parser ins) now group).1,
    groups.flatMap fun group => (flushStreamGroup config.hash (config.parser ins) now group).2)

def passGroup (index : Nat) (input : Input) (group : StreamGroup) : StreamGroup × List Parcel :=
  match input with
  | .text _ buf =>
    let line : Line :=
      { map := none, content := buf, pattern := none, group := none, time := 0, metadata := none }
    flushStreamGroup config.hash (config.parser ins) now (group.add index line)
  | .object tm metadata body =>
    ({ group with context := [], buf := [], pieces := [] },
      [{ group := group.name, record := { time := tm, metadata, body }, pieces := [{ index, text := [] }] }])

def passGroups (index : Nat) (input : Input) : List StreamGroup → List StreamGroup × List Parcel
  | [] => ([], [])
  | group :: rest =>
    let passed := passGroup config ins now index input group
    (passed.1 :: rest, passed.2)

def settle (index : Nat) (input : Input) (groups : List StreamGroup) : List StreamGroup × List Parcel :=
  let flushed := flushGroups config ins now groups
  let passed := passGroups config ins now index input flushed.1
  (passed.1, flushed.2 ++ passed.2)

def advance (index : Nat) (input : Input) (groups : List StreamGroup) : List StreamGroup × List Parcel :=
  match convert (config.parser ins) input with
  | none => settle config ins now index input groups
  | some converted =>
    match attempt config.hash (config.parser ins) input now index converted groups with
    | .accepted groups parcels => (groups, parcels)
    | .rejected groups => settle config ins now index input groups
    | .crashed => (groups, [])

end

section

variable {config : Config} {ins : Ins} {now : Nat} {ml : Ml} {stream target : StreamId} {input : Input}

theorem flushStreamGroup_twice (hash : Value × Value → Nat) (parser : Parser) (group : StreamGroup) :
    flushStreamGroup hash parser now (flushStreamGroup hash parser now group).1 =
      ((flushStreamGroup hash parser now group).1, []) := by
  have context : (flushStreamGroup hash parser now group).1.context = [] := by
    unfold flushStreamGroup
    simp only
    cases found : (breaklinePrepare parser group).context with
    | nil =>
      by_cases blank : (breaklinePrepare parser group).buf = []
      · rw [composeRecord_blank found blank]
        exact found
      · rw [composeRecord_raw found blank]
        exact found
    | cons map rest => rw [composeRecord_registered found]
  have buf : (flushStreamGroup hash parser now group).1.buf = [] := rfl
  have pieces : (flushStreamGroup hash parser now group).1.pieces = [] := rfl
  generalize (flushStreamGroup hash parser now group).1 = flushed at context buf pieces ⊢
  have prepared : breaklinePrepare parser flushed = flushed := by simp [breaklinePrepare, buf]
  unfold flushStreamGroup
  simp only [prepared, composeRecord_blank context buf, Option.map_none, Option.toList_none]
  rw [← buf, ← pieces]

theorem flushGroups_twice (groups : List StreamGroup) :
    flushGroups config ins now (flushGroups config ins now groups).1 = ((flushGroups config ins now groups).1, []) := by
  unfold flushGroups
  simp only [map_map, Prod.mk.injEq]
  constructor
  · apply map_congr_left
    intro group _
    simp [flushStreamGroup_twice]
  · simp [flatMap_map, flushStreamGroup_twice]

theorem deliver_deliver (groups more : List StreamGroup) (parcels later : List Parcel) :
    (ml.deliver ins stream groups parcels).deliver ins stream more later =
      ml.deliver ins stream more (parcels ++ later) := by
  simp [deliver]

theorem flushStream_eq : ml.flushStream config now ins stream =
      ml.deliver ins stream (flushGroups config ins now (ml.groupsOf ins stream)).1
        (flushGroups config ins now (ml.groupsOf ins stream)).2 := by
  simp [flushStream, flushGroups, flatMap_map, Function.comp_def]

theorem flushParserInstance_eq (distinct : ml.created.Nodup) (created : stream ∈ ml.created) (positive : stream ≠ 0) :
    ml.flushParserInstance config ins stream now =
      ml.deliver ins stream (flushGroups config ins now (ml.groupsOf ins stream)).1
        (flushGroups config ins now (ml.groupsOf ins stream)).2 := by
  have only : (ml.created.filter fun other => decide (stream = 0 ∨ other = stream)) = [stream] := by
    have same : (ml.created.filter fun other => decide (stream = 0 ∨ other = stream)) =
        ml.created.filter (· == stream) := by
      apply filter_congr
      intro other _
      simp [positive, beq_eq_decide_eq]
    rw [same, filter_beq, count_eq_one_of_mem distinct created]
    rfl
  unfold flushParserInstance
  rw [only]
  exact flushStream_eq

section

variable {Outcome : Type} (rejected : List StreamGroup → Outcome)
  (accepted : List StreamGroup → List Parcel → Outcome) (crashed : Outcome)

/-- What an append comes to, told from the line that is selected. -/
def onLine (config : Config) (ins : Ins) (input : Input) (now index : Nat) (groups : List StreamGroup) : Outcome :=
  match lineOf config ins input now with
  | none => rejected groups
  | some line =>
    match streamGroupGet (config.parser ins) groups line.group with
    | none => if readsGroup (config.parser ins) line then crashed else rejected groups
    | some (place, wide) =>
      match wide[place]? with
      | none => crashed
      | some group =>
        match packageContent config.hash (config.parser ins) now index line group with
        | none => rejected wide
        | some result => accepted (wide.set place result.1) result.2

theorem onLine_eq (index : Nat) (groups : List StreamGroup) :
    (match convert (config.parser ins) input with
      | none => rejected groups
      | some converted =>
        match attempt config.hash (config.parser ins) input now index converted groups with
        | .rejected groups => rejected groups
        | .accepted groups parcels => accepted groups parcels
        | .crashed => crashed) = onLine rejected accepted crashed config ins input now index groups := by
  unfold onLine lineOf
  cases convert (config.parser ins) input with
  | none => rfl
  | some converted =>
    unfold attempt
    simp only [Option.bind_some]
    cases selectLine (config.parser ins) input now converted with
    | none => rfl
    | some line =>
      simp only
      cases streamGroupGet (config.parser ins) groups line.group with
      | none =>
        cases readsGroup (config.parser ins) line with
        | _ => rfl
      | some found =>
        simp only
        cases found.2[found.1]? with
        | none => rfl
        | some group =>
          simp only
          cases packageContent config.hash (config.parser ins) now index line group with
          | none => rfl
          | some result => rfl

end

theorem advance_eq (index : Nat) (groups : List StreamGroup) : advance config ins now index input groups =
      onLine (settle config ins now index input) Prod.mk (groups, []) config ins input now index groups := by
  rw [← onLine_eq, advance]
  cases convert (config.parser ins) input with
  | none => rfl
  | some converted =>
    simp only
    cases attempt config.hash (config.parser ins) input now index converted groups with | _ => rfl

variable {groups : List StreamGroup}

theorem settle_ne_nil (index : Nat) (opened : groups ≠ []) : (settle config ins now index input groups).1 ≠ [] := by
  cases groups with
  | nil => exact absurd rfl opened
  | cons group rest => cases input with | _ => simp [settle, passGroups, flushGroups]

theorem advance_ne_nil (index : Nat) (opened : groups ≠ []) : (advance config ins now index input groups).1 ≠ [] := by
  rw [advance_eq, onLine]
  split
  · exact settle_ne_nil index opened
  next line _ =>
    split
    · split
      · exact opened
      · exact settle_ne_nil index opened
    next place wide got =>
      obtain ⟨widened, _⟩ := streamGroupGet_cases got
      have filled : wide ≠ [] := by
        rcases widened with rfl | ⟨name, rfl⟩
        · exact opened
        · simp
      split
      · exact opened
      · split
        · exact settle_ne_nil index filled
        · simpa using filled

theorem advance_cases (alive : ml.crashed = false) (created : stream ∈ ml.created)
    (room : Room config ml stream input now ins) (opened : ml.groupsOf ins stream ≠ []) :
    (∃ groups parcels, ml.tryParser config ins stream input now = (true, ml.deliver ins stream groups parcels) ∧
        advance config ins now (ml.appended stream).length input (ml.groupsOf ins stream) = (groups, parcels)) ∨
      ∃ groups, Widened (ml.groupsOf ins stream) groups ∧
        ml.tryParser config ins stream input now = (false, ml.deliver ins stream groups []) ∧
        advance config ins now (ml.appended stream).length input (ml.groupsOf ins stream) =
          settle config ins now (ml.appended stream).length input groups := by
  have cases := tryParser_cases alive created opened room
  unfold tryParser at cases ⊢
  unfold advance
  simp only [alive, false_eq_true, if_false, created, if_true] at cases ⊢
  cases converted : convert (config.parser ins) input with
  | none => exact .inr ⟨_, .inl rfl, by simp [deliver_self], rfl⟩
  | some conv =>
    simp only [converted] at cases ⊢
    cases tried : attempt config.hash (config.parser ins) input now (ml.appended stream).length conv
        (ml.groupsOf ins stream) with
    | rejected groups =>
      simp only [tried] at cases ⊢
      rcases cases with ⟨_, other, widened, same⟩ | ⟨taken, _⟩
      · have equal : groups = other := by
          have here := congrArg (fun after => after.groupsOf ins stream) same
          simpa using here
        subst equal
        exact .inr ⟨groups, widened, rfl, rfl⟩
      · cases taken
    | accepted groups parcels => exact .inl ⟨groups, parcels, rfl, rfl⟩
    | crashed =>
      simp only [tried] at cases
      rcases cases with ⟨refused, _⟩ | ⟨_, ⟨took⟩⟩
      · cases refused
      · have dead := congrArg Ml.crashed took.state
        simp [deliver, alive] at dead

def Foreign (config : Config) (input : Input) (now : Nat) (ins : Ins) : Prop :=
  ∀ line, lineOf config ins input now = some line →
    ((config.parser ins).grouped = false ∨ line.group = none) ∧
      ∀ index, packageContent config.hash (config.parser ins) now index line (.create []) = none

theorem Foreign.refuses (foreign : Foreign config input now ins) (alive : ml.crashed = false)
    (created : stream ∈ ml.created) (unused : ml.groupsOf ins stream = [.create []]) :
    ml.tryParser config ins stream input now = (false, ml) := by
  unfold tryParser
  rw [if_neg (by simp [alive])]
  cases converted : convert (config.parser ins) input with
  | none => rfl
  | some conv =>
    simp only [created, if_true, unused]
    unfold attempt
    cases selected : selectLine (config.parser ins) input now conv with
    | none =>
      simp only
      rw [← unused, deliver_self]
    | some line =>
      obtain ⟨plain, refused⟩ := foreign line (by simp [lineOf, converted, selected])
      have first : streamGroupGet (config.parser ins) [.create []] line.group = some (0, [.create []]) := by
        unfold streamGroupGet
        rcases plain with ungrouped | nameless
        · simp [ungrouped]
        · simp [nameless]
      simp only [first, List.getElem?_cons_zero, refused]
      rw [← unused, deliver_self]

theorem parserLoop_refused (lru : Option Ins) (rest : List Ins)
    (refused : ∀ ins ∈ rest, ml.skips stream input lru ins = true ∨
      ml.tryParser config ins stream input now = (false, ml)) :
    ml.parserLoop config stream input now lru rest = (none, ml) := by
  induction rest with
  | nil => rfl
  | cons ins rest ih =>
    have later := ih fun other member => refused other (mem_cons_of_mem _ member)
    unfold parserLoop
    by_cases skipped : ml.skips stream input lru ins = true
    · rw [if_pos skipped, later]
    · rw [if_neg skipped, (refused ins (by simp)).resolve_left skipped]
      exact later

theorem parserLoop_home (rest : List Ins) (member : ins ∈ rest) (distinct : rest.Nodup)
    (refused : ∀ other ∈ rest, other ≠ ins → ml.tryParser config other stream input now = (false, ml) ∧
      (ml.tryParser config ins stream input now).2.tryParser config other stream input now =
        (false, (ml.tryParser config ins stream input now).2)) : ml.parserLoop config stream input now none rest =
      (if (ml.tryParser config ins stream input now).1 then some ins else none,
        (ml.tryParser config ins stream input now).2) := by
  induction rest with
  | nil => cases member
  | cons head rest ih =>
    obtain ⟨fresh, distinct⟩ := nodup_cons.mp distinct
    unfold parserLoop
    rw [if_neg (by simp [skips])]
    by_cases same : head = ins
    · subst same
      by_cases taken : (ml.tryParser config head stream input now).1 = true
      · simp [taken]
      · simp only [taken, false_eq_true, if_false]
        apply parserLoop_refused
        intro other later
        have apart : other ≠ head := fun equal => fresh (equal ▸ later)
        exact .inr (refused other (mem_cons_of_mem _ later) apart).2
    · rw [(refused head (by simp) same).1]
      apply ih
      · exact (mem_cons.mp member).resolve_left fun equal => same equal.symm
      · exact distinct
      · intro other later
        exact refused other (mem_cons_of_mem _ later)

/-! ### An append -/

structure Ready (parsers : List Ins) (home : StreamId → Ins) (ml : Ml) : Prop where
  alive : ml.crashed = false
  distinct : ml.created.Nodup
  positive : 0 ∉ ml.created
  opened : ∀ stream ∈ ml.created, ml.groupsOf (home stream) stream ≠ []
  unused : ∀ stream ∈ ml.created, ∀ ins ∈ parsers, ins ≠ home stream → ml.groupsOf ins stream = [.create []]
  used : ∀ last, ml.lru 0 = some last → last = home (ml.lastStreamId last) ∧ ml.lastStreamId last ≠ 0

structure Decided (config : Config) (parsers : List Ins) (home : StreamId → Ins) (ml : Ml) (stream : StreamId)
    (input : Input) (now : Nat) : Prop where
  created : stream ∈ ml.created
  room : Room config ml stream input now (home stream)
  foreign : ∀ ins ∈ parsers, ins ≠ home stream → Foreign config input now ins
  first : parsers.head? = some (home stream) ∨ accepts config ml stream input now (home stream) = true

theorem flushParserInstance_twice (distinct : ml.created.Nodup) (created : stream ∈ ml.created)
    (positive : stream ≠ 0) : (ml.flushParserInstance config ins stream now).flushParserInstance config ins stream now =
      ml.flushParserInstance config ins stream now := by
  rw [flushParserInstance_eq distinct created positive]
  generalize waiting : ml.groupsOf ins stream = groups
  have again := @flushParserInstance_eq config ins now
    (ml.deliver ins stream (flushGroups config ins now groups).1 (flushGroups config ins now groups).2) stream
    distinct created positive
  rw [again, groupsOf_deliver_self, deliver_deliver, flushGroups_twice, append_nil]

theorem passOn_home (distinct : ml.created.Nodup) (created : stream ∈ ml.created) (positive : stream ≠ 0)
    (opened : ml.groupsOf ins stream ≠ []) {lru : Option Ins} {parsers : List Ins}
    (chosen : lru = some ins ∨ lru = none ∧ parsers.head? = some ins) :
    ml.passOn config stream input now lru parsers = ml.deliver ins stream
        (settle config ins now (ml.appended stream).length input (ml.groupsOf ins stream)).1
        (settle config ins now (ml.appended stream).length input (ml.groupsOf ins stream)).2 := by
  have flushed : (ml.flushLast config stream now lru).flushParserInstance config ins stream now =
      ml.flushParserInstance config ins stream now := by
    rcases chosen with rfl | ⟨rfl, _⟩
    · exact flushParserInstance_twice distinct created positive
    · rfl
  have through : lru.or parsers.head? = some ins := by
    rcases chosen with rfl | ⟨rfl, head⟩
    · rfl
    · exact head
  unfold passOn
  simp only [through, flushed]
  rw [flushParserInstance_eq distinct created positive]
  generalize waiting : ml.groupsOf ins stream = groups at opened ⊢
  rw [if_pos (by exact created)]
  cases groups with
  | nil => exact absurd rfl opened
  | cons group rest =>
    cases input with
    | text tm buf =>
      simp [flushText, groupsOf_deliver_self, settle, passGroups, passGroup, flushGroups, deliver_deliver]
    | object tm metadata body =>
      simp [flushObject, groupsOf_deliver_self, settle, passGroups, passGroup, flushGroups, deliver_deliver]

theorem settle_flushed (index : Nat) (groups : List StreamGroup) :
    (settle config ins now index input (flushGroups config ins now groups).1).1 =
        (settle config ins now index input groups).1 ∧ (flushGroups config ins now groups).2 ++
          (settle config ins now index input (flushGroups config ins now groups).1).2 =
        (settle config ins now index input groups).2 := by
  simp [settle, flushGroups_twice]

end

section

variable {config : Config} {parsers : List Ins} {home : StreamId → Ins} {now : Nat} {ml : Ml} {stream : StreamId}
  {input : Input}

theorem Ready.refuses (ready : Ready parsers home ml) (decided : Decided config parsers home ml stream input now)
    (groups : List StreamGroup) (parcels : List Parcel) {other : Ins} (among : other ∈ parsers)
    (apart : other ≠ home stream) :
    (ml.deliver (home stream) stream groups parcels).tryParser config other stream input now =
      (false, ml.deliver (home stream) stream groups parcels) := by
  apply (decided.foreign other among apart).refuses
  · exact ready.alive
  · exact decided.created
  · rw [groupsOf_deliver_of_ne (.inl apart)]
    exact ready.unused stream decided.created other among apart

/-- A line of a stream goes to the parser of the stream. -/
theorem append_home (ready : Ready parsers home ml) (one : config.groups = [parsers])
    (among : home stream ∈ parsers) (decided : Decided config parsers home ml stream input now) :
    ∃ lru lastStreamId, ml.append config stream input now = { ml.deliver (home stream) stream
            (advance config (home stream) now (ml.appended stream).length input (ml.groupsOf (home stream) stream)).1
            (advance config (home stream) now (ml.appended stream).length input
              (ml.groupsOf (home stream) stream)).2 with
          lru, lastStreamId
          appended := Function.update ml.appended stream (ml.appended stream ++ [input]) } ∧
        ∀ last, lru 0 = some last → last = home (lastStreamId last) ∧ lastStreamId last ≠ 0 := by
  have distinct : parsers.Nodup := by simpa [one] using config.distinct
  have positive : stream ≠ 0 := fun zero => ready.positive (zero ▸ decided.created)
  have opened := ready.opened stream decided.created
  have waits : ∀ groups, Widened (ml.groupsOf (home stream) stream) groups → groups ≠ [] := by
    rintro groups (rfl | ⟨name, rfl⟩)
    · exact opened
    · simp
  cases found : lruFor ml stream with
  | some last =>
    obtain ⟨used, same⟩ := Option.filter_eq_some_iff.mp found
    have mine : ml.lastStreamId last = stream := by simpa using same
    have homely : last = home stream := mine ▸ (ready.used last used).1
    subst homely
    -- The loop over the parsers skips the one of the stream, and the others do nothing.
    have idle : ∀ groups parcels,
        (ml.deliver (home stream) stream groups parcels).parserLoop config stream input now (some (home stream))
          parsers = (none, ml.deliver (home stream) stream groups parcels) := by
      intro groups parcels
      apply parserLoop_refused
      intro other member
      by_cases apart : other = home stream
      · subst apart
        exact .inl (by simp [skips, deliver, mine])
      · exact .inr (ready.refuses decided groups parcels member apart)
    refine ⟨ml.lru, ml.lastStreamId, ?_, ready.used⟩
    rw [append_eq one (lruLoop_of_some found) (by split <;> rfl)]
    rcases advance_cases ready.alive decided.created decided.room opened with
      ⟨groups, parcels, tried, result⟩ | ⟨groups, widened, tried, result⟩
    · rw [if_pos (by simp [accepts, tried]), finish_of_none (by rw [tried]; exact idle groups parcels), result]
      rfl
    · have flushed := @flushParserInstance_eq config (home stream) now (ml.deliver (home stream) stream groups [])
        stream ready.distinct decided.created positive
      rw [groupsOf_deliver_self, deliver_deliver, nil_append] at flushed
      have passed := @passOn_home config (home stream) now
        (ml.deliver (home stream) stream (flushGroups config (home stream) now groups).1
          (flushGroups config (home stream) now groups).2) stream input ready.distinct decided.created positive
        (by simpa [flushGroups] using waits groups widened) (some (home stream)) parsers (.inl rfl)
      rw [groupsOf_deliver_self, deliver_deliver] at passed
      obtain ⟨after, parcels⟩ := @settle_flushed config (home stream) now input (ml.appended stream).length groups
      rw [if_neg (by simp [accepts, tried]), result, tried,
        finish_of_none (by rw [flushed]; exact idle _ _), if_neg (by simp), passed]
      simp only [show (ml.deliver (home stream) stream (flushGroups config (home stream) now groups).1
        (flushGroups config (home stream) now groups).2).appended = ml.appended from rfl, after, parcels]
      rfl
  | none =>
    have apart : ∀ other ∈ parsers, other ≠ home stream → ml.tryParser config other stream input now = (false, ml) := by
      intro other member apart
      have refused := ready.refuses decided (ml.groupsOf (home stream) stream) [] member apart
      rwa [deliver_self] at refused
    have pass := append_eq one (@lruLoop_of_none config parsers ml stream input now found
      fun last used => (ready.used last used).2) rfl
    rcases advance_cases ready.alive decided.created decided.room opened with
      ⟨groups, parcels, tried, result⟩ | ⟨groups, widened, tried, result⟩
    · have loop := parserLoop_home parsers among distinct fun other member different =>
        ⟨apart other member different, by rw [tried]; exact ready.refuses decided groups parcels member different⟩
      rw [tried, if_pos rfl] at loop
      refine ⟨Function.update ml.lru 0 (some (home stream)),
        Function.update ml.lastStreamId (home stream) stream, ?_, ?_⟩
      · rw [pass, result]
        unfold finish
        simp only [loop]
        rfl
      · intro last used
        have here : home stream = last := by simpa using used
        subst here
        simp [positive]
    · have loop := parserLoop_home parsers among distinct fun other member different =>
        ⟨apart other member different, by rw [tried]; exact ready.refuses decided groups [] member different⟩
      rw [tried, if_neg (by simp)] at loop
      have head : parsers.head? = some (home stream) := decided.first.resolve_right (by simp [accepts, tried])
      have passed := @passOn_home config (home stream) now (ml.deliver (home stream) stream groups []) stream input
        ready.distinct decided.created positive (by simpa using waits groups widened) none parsers
        (.inr ⟨rfl, head⟩)
      rw [groupsOf_deliver_self, deliver_deliver, nil_append] at passed
      refine ⟨ml.lru, ml.lastStreamId, ?_, ready.used⟩
      rw [pass, result, finish_of_none loop, if_neg (by simp), passed]
      rfl

theorem Ready.append (ready : Ready parsers home ml) (one : config.groups = [parsers])
    (among : home stream ∈ parsers) (decided : Decided config parsers home ml stream input now) :
    Ready parsers home (ml.append config stream input now) := by
  obtain ⟨lru, lastStreamId, after, used⟩ := append_home ready one among decided
  rw [after]
  refine ⟨ready.alive, ready.distinct, ready.positive, ?_, ?_, used⟩
  · intro target created
    by_cases same : target = stream
    · subst same
      simpa using advance_ne_nil _ (ready.opened target created)
    · simpa [groupsOf_deliver_of_ne (.inr same)] using ready.opened target created
  · intro target created ins member apart
    have elsewhere : ins ≠ home stream ∨ target ≠ stream := by
      by_cases same : target = stream
      · subst same
        exact .inl apart
      · exact .inr same
    simpa [groupsOf_deliver_of_ne elsewhere] using ready.unused target created ins member apart

theorem ready_initial : Ready parsers home .initial :=
  ⟨rfl, .nil, by simp [Ml.initial], by simp [Ml.initial], by simp [Ml.initial], by simp [Ml.initial]⟩

theorem Ready.streamCreate (ready : Ready parsers home ml) (positive : stream ≠ 0) :
    Ready parsers home (ml.streamCreate stream) := by
  unfold Ml.streamCreate
  by_cases known : stream ∈ ml.created
  · rwa [if_pos known]
  · rw [if_neg known]
    refine ⟨ready.alive, ?_, ?_, ?_, ?_, ready.used⟩
    · exact nodup_append.mpr ⟨ready.distinct, by simp, by grind⟩
    · simpa [ready.positive] using positive.symm
    · intro target created
      by_cases same : target = stream
      · simp [same]
      · simpa [same] using ready.opened target (by simpa [same] using created)
    · intro target created ins member apart
      by_cases same : target = stream
      · simp [same]
      · simpa [same] using ready.unused target (by simpa [same] using created) ins member apart

theorem flushPending_related {related : Ml → Ml → Prop} {left right : Ml} (start : related left right)
    (created : ∀ left right, related left right → left.created = right.created)
    (flush : ∀ left right, ∀ ins ∈ config.groups.headD [], ∀ target ∈ left.created, related left right →
      related (left.flushStream config now ins target) (right.flushStream config now ins target)) :
    related (left.flushPending config now) (right.flushPending config now) := by
  have streams : ∀ ins ∈ config.groups.headD [], ∀ (targets : List StreamId) (left right : Ml),
      (∀ target ∈ targets, target ∈ left.created) → related left right →
      related (targets.foldl (flushStream config now ins) left) (targets.foldl (flushStream config now ins) right) := by
    intro ins among targets
    induction targets with
    | nil =>
      intro left right _ holds
      exact holds
    | cons target targets ih =>
      intro left right known holds
      apply ih
      · intro later member
        exact known later (mem_cons_of_mem _ member)
      · exact flush left right ins among target (known target (by simp)) holds
  unfold flushPending
  clear flush
  generalize config.groups.headD [] = parsers at streams ⊢
  induction parsers generalizing left right with
  | nil => exact start
  | cons ins parsers ih =>
    apply ih _ fun other member => streams other (mem_cons_of_mem _ member)
    simp only [flushParserInstance]
    rw [← created left right start]
    apply streams ins (by simp)
    · intro target member
      exact (mem_filter.mp member).1
    · exact start

theorem flushGroups_create (ins : Ins) : flushGroups config ins now [.create []] = ([.create []], []) := by
  have still : flushStreamGroup config.hash (config.parser ins) now (.create []) = (.create [], []) := by
    have prepared : breaklinePrepare (config.parser ins) (.create []) = .create [] := by
      simp [breaklinePrepare, StreamGroup.create]
    unfold flushStreamGroup
    simp only [prepared]
    rw [composeRecord_blank rfl rfl]
    rfl
  simp [flushGroups, still]

theorem Ready.flushStream (ready : Ready parsers home ml) (ins : Ins) (target : StreamId) :
    Ready parsers home (ml.flushStream config now ins target) := by
  rw [flushStream_eq]
  refine ⟨ready.alive, ready.distinct, ready.positive, ?_, ?_, ready.used⟩
  · intro stream created
    by_cases here : home stream = ins ∧ stream = target
    · obtain ⟨rfl, rfl⟩ := here
      simpa [flushGroups] using ready.opened stream created
    · rw [groupsOf_deliver_of_ne (not_and_or.mp here)]
      exact ready.opened stream created
  · intro stream created other member apart
    by_cases here : other = ins ∧ stream = target
    · obtain ⟨rfl, rfl⟩ := here
      rw [groupsOf_deliver_self, ready.unused stream created other member apart, flushGroups_create]
    · rw [groupsOf_deliver_of_ne (not_and_or.mp here)]
      exact ready.unused stream created other member apart

end

end FluentBit.Multiline
