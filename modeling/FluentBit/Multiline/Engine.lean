import FluentBit.Multiline.GroupProperties

/-! The multiline engine, after `src/multiline/flb_ml.c`: the appends of a stream go
to the parser that took the last one, or else to the first parser of the group that
takes them, or out as they are.

All parsers are there before the first stream is created. -/

set_option autoImplicit false

namespace FluentBit.Multiline

abbrev StreamId : Type := Nat

abbrev Ins : Type := Nat

/-- `groups` are the parser groups of the context with their instances. -/
structure Config where
  groups : List (List Ins)
  parser : Ins → Parser
  hash : Value × Value → Nat
  distinct : groups.flatten.Nodup

theorem nodup_single : ([[0]] : List (List Ins)).flatten.Nodup := by decide

inductive Input where
  | text (tm : Nat) (buf : Bytes)
  | object (tm : Nat) (metadata : Map) (body : Map)
deriving DecidableEq

namespace Input

def tm : Input → Nat
  | .text tm _ => tm
  | .object tm _ _ => tm

def metadata : Input → Option Map
  | .text _ _ => none
  | .object _ metadata _ => some metadata

def isObject : Input → Bool
  | .text _ _ => false
  | .object _ _ _ => true

end Input

structure Converted where
  map : Option Map
  text : Bytes
  time : Nat

/-- `flb_parser_do`, with the time of the append when the parser finds none. -/
def parseText (parse : Bytes → Option (Map × Nat)) (tm : Nat) (text : Bytes) : Option Converted :=
  (parse text).map fun (map, time) => { map := some map, text := [], time := if time = 0 then tm else time }

/-- `ml_append_try_parser_type_text` and `ml_append_try_parser_type_map` -/
def convert (parser : Parser) (input : Input) : Option Converted :=
  match input, parser.parser with
  | .text _ buf, none => some { map := none, text := buf, time := 0 }
  | .text tm buf, some parse => parseText parse tm buf
  | .object _ _ body, none => some { map := some body, text := [], time := 0 }
  | .object tm _ body, some parse =>
    match body.find? fun entry => parser.keyContent.any fun name => keyIs name name.length entry.1 with
    | none => some { map := some body, text := [], time := 0 }
    | some (_, .str text) => parseText parse tm text
    | some (_, .other _) => none

/-- `process_append` up to the call of `package_content`. -/
def selectLine (parser : Parser) (input : Input) (now : Nat) (converted : Converted) : Option Line :=
  let time := if converted.time ≠ 0 then converted.time else if input.tm ≠ 0 then input.tm else now
  match converted.map with
  | none => some { map := none, content := converted.text, pattern := none, group := none, time, metadata := none }
  | some map =>
    (getKey map parser.keyContent).map fun content =>
      { map := some map, content, pattern := getKey map parser.keyPattern, group := getKey map parser.keyGroup
        time, metadata := input.metadata }

/-- What becomes of an attempt with one parser instance. Without room for a new
group, `package_content` follows a null pointer where it looks at the group. -/
inductive Attempt where
  | rejected (groups : List StreamGroup)
  | accepted (groups : List StreamGroup) (parcels : List Parcel)
  | crashed

/-- The part of `ml_append_try_parser` behind the lookup of the stream. -/
def attempt (hash : Value × Value → Nat) (parser : Parser) (input : Input) (now index : Nat)
    (converted : Converted) (groups : List StreamGroup) : Attempt :=
  match selectLine parser input now converted with
  | none => .rejected groups
  | some line =>
    match streamGroupGet parser groups line.group with
    | none => if readsGroup parser line then .crashed else .rejected groups
    | some (place, groups) =>
      match groups[place]? with
      | none => .crashed
      | some group =>
        match packageContent hash parser now index line group with
        | none => .rejected groups
        | some (group, parcels) => .accepted (groups.set place group) parcels

/-- A call of `cb_flush`. -/
structure Flushed where
  ins : Ins
  stream : StreamId
  parcel : Parcel
deriving DecidableEq

/-- `struct flb_ml` with its parser instances. `flushed` and `appended` record the
records that were given to the callback and what was appended to each stream. -/
structure Ml where
  created : List StreamId
  groupsOf : Ins → StreamId → List StreamGroup
  lru : Nat → Option Ins
  lastStreamId : Ins → StreamId
  flushed : List Flushed
  appended : StreamId → List Input
  crashed : Bool

def Ml.initial : Ml :=
  { created := [], groupsOf := fun _ _ => [], lru := fun _ => none, lastStreamId := fun _ => 0
    flushed := [], appended := fun _ => [], crashed := false }

namespace Ml

def deliver (ins : Ins) (stream : StreamId) (groups : List StreamGroup) (parcels : List Parcel) (ml : Ml) : Ml :=
  { ml with
    groupsOf := Function.update ml.groupsOf ins (Function.update (ml.groupsOf ins) stream groups)
    flushed := ml.flushed ++ parcels.map fun parcel => { ins, stream, parcel } }

variable (config : Config)

def flushStream (now : Nat) (ins : Ins) (ml : Ml) (stream : StreamId) : Ml :=
  let results := (ml.groupsOf ins stream).map (flushStreamGroup config.hash (config.parser ins) now)
  ml.deliver ins stream (results.map Prod.fst) (results.flatMap Prod.snd)

/-- `flb_ml_flush_parser_instance`: the stream identifier 0 stands for all streams. -/
def flushParserInstance (ins : Ins) (stream : StreamId) (now : Nat) (ml : Ml) : Ml :=
  (ml.created.filter fun other => stream = 0 ∨ other = stream).foldl (flushStream config now ins) ml

def flushPending (now : Nat) (ml : Ml) : Ml :=
  (config.groups.headD []).foldl (fun ml ins => ml.flushParserInstance config ins 0 now) ml

/-- `ml_append_try_parser`: an unknown stream is not an error. -/
def tryParser (ins : Ins) (stream : StreamId) (input : Input) (now : Nat) (ml : Ml) : Bool × Ml :=
  if ml.crashed then (true, ml)
  else
    match convert (config.parser ins) input with
    | none => (false, ml)
    | some converted =>
      if stream ∈ ml.created then
        match attempt config.hash (config.parser ins) input now (ml.appended stream).length converted
            (ml.groupsOf ins stream) with
        | .rejected groups => (false, ml.deliver ins stream groups [])
        | .accepted groups parcels => (true, ml.deliver ins stream groups parcels)
        | .crashed => (true, { ml with crashed := true })
      else (true, ml)

/-- Where the loop over the groups stops: the variables `processed`, `group` and
`lru_parser`. -/
structure Pass where
  processed : Bool
  group : Nat
  lru : Option Ins
  ml : Ml

/-- The first loop of an append, over the groups from `index` on. -/
def lruLoop (stream : StreamId) (input : Input) (now : Nat) (index : Nat) : List (List Ins) → Pass → Pass
  | [], pass => pass
  | _ :: rest, pass =>
    match pass.ml.lru index with
    | none => lruLoop stream input now (index + 1) rest { pass with group := index, lru := none }
    | some last =>
      if pass.ml.lastStreamId last = stream then
        let tried := pass.ml.tryParser config last stream input now
        if tried.1 then { processed := true, group := index, lru := some last, ml := tried.2 }
        else
          lruLoop stream input now (index + 1) rest
            { processed := false, group := index, lru := some last
              ml := tried.2.flushParserInstance config last stream now }
      else if 0 < pass.ml.lastStreamId last then
        lruLoop stream input now (index + 1) rest { pass with group := index, lru := none }
      else
        lruLoop stream input now (index + 1) rest { pass with group := index, lru := some last }

def skips (stream : StreamId) (input : Input) (lru : Option Ins) (ml : Ml) (ins : Ins) : Bool :=
  decide (lru = some ins) && (input.isObject || decide (ml.lastStreamId ins = stream))

def parserLoop (stream : StreamId) (input : Input) (now : Nat) (lru : Option Ins) : List Ins → Ml → Option Ins × Ml
  | [], ml => (none, ml)
  | ins :: rest, ml =>
    if ml.skips stream input lru ins then parserLoop stream input now lru rest ml
    else
      let tried := ml.tryParser config ins stream input now
      if tried.1 then (some ins, tried.2) else parserLoop stream input now lru rest tried.2

def flushText (ins : Ins) (stream : StreamId) (now : Nat) (index : Nat) (buf : Bytes) (ml : Ml) : Ml :=
  match ml.groupsOf ins stream with
  | [] => { ml with crashed := true }
  | group :: rest =>
    let line : Line := { map := none, content := buf, pattern := none, group := none, time := 0, metadata := none }
    let result := flushStreamGroup config.hash (config.parser ins) now (group.add index line)
    ml.deliver ins stream (result.1 :: rest) result.2

def flushObject (ins : Ins) (stream : StreamId) (index : Nat) (tm : Nat) (metadata body : Map) (ml : Ml) : Ml :=
  match ml.groupsOf ins stream with
  | [] => { ml with crashed := true }
  | group :: rest =>
    let parcel : Parcel :=
      { group := group.name, record := { time := tm, metadata, body }, pieces := [{ index, text := [] }] }
    ml.deliver ins stream ({ group with context := [], buf := [], pieces := [] } :: rest) [parcel]

def flushLast (stream : StreamId) (now : Nat) (lru : Option Ins) (ml : Ml) : Ml :=
  match lru with
  | some last => ml.flushParserInstance config last stream now
  | none => ml

def passOn (stream : StreamId) (input : Input) (now : Nat) (lru : Option Ins) (parsers : List Ins) (ml : Ml) : Ml :=
  let flushed := ml.flushLast config stream now lru
  match lru.or parsers.head? with
  | none => { flushed with crashed := true }
  | some ins =>
    let flushed := flushed.flushParserInstance config ins stream now
    if stream ∈ flushed.created then
      let index := (ml.appended stream).length
      match input with
      | .text _ buf => flushed.flushText config ins stream now index buf
      | .object tm metadata body => flushed.flushObject ins stream index tm metadata body
    else flushed

/-- `flb_ml_append_text` and `flb_ml_append_object` -/
def append (stream : StreamId) (input : Input) (now : Nat) (ml : Ml) : Ml :=
  let pass := lruLoop config stream input now 0 config.groups
    { processed := false, group := 0, lru := none, ml }
  let parsers := config.groups.getD pass.group []
  let tried := parserLoop config stream input now pass.lru parsers pass.ml
  let done := match tried.1 with
    | some ins =>
      { tried.2 with
        lru := Function.update tried.2.lru pass.group (some ins)
        lastStreamId := Function.update tried.2.lastStreamId ins stream }
    | none => if pass.processed then tried.2 else tried.2.passOn config stream input now pass.lru parsers
  { done with appended := Function.update done.appended stream (done.appended stream ++ [input]) }

/-- `flb_ml_stream_create`, for an identifier that its name is hashed to. -/
def streamCreate (stream : StreamId) (ml : Ml) : Ml :=
  if stream ∈ ml.created then ml
  else
    { ml with
      created := ml.created ++ [stream]
      groupsOf := fun ins => Function.update (ml.groupsOf ins) stream [.create []] }

end Ml

inductive Event where
  | streamCreate (stream : StreamId)
  | append (stream : StreamId) (input : Input) (now : Nat)
  | flushPending (now : Nat)

def step (config : Config) (event : Event) (ml : Ml) : Ml :=
  if ml.crashed then ml
  else
    match event with
    | .streamCreate stream => ml.streamCreate stream
    | .append stream input now => ml.append config stream input now
    | .flushPending now => ml.flushPending config now

/-! What the operations of the engine touch. A parser that does not take an input leaves
the buffers alone, a parser that does so changes one group of the stream, and a
flush stays in the stream it is for. -/

variable {config : Config} {ml : Ml} {ins other : Ins} {stream : StreamId} {input : Input} {now : Nat}

namespace Ml

/-! ### Deliveries -/

variable (groups : List StreamGroup)

@[simp] theorem groupsOf_deliver_self (parcels : List Parcel) :
    (ml.deliver ins stream groups parcels).groupsOf ins stream = groups := by
  simp [deliver]

theorem groupsOf_deliver_of_ne {groups : List StreamGroup} {parcels : List Parcel} {target : StreamId}
    (apart : other ≠ ins ∨ target ≠ stream) :
    (ml.deliver ins stream groups parcels).groupsOf other target = ml.groupsOf other target := by
  unfold deliver
  by_cases same : other = ins
  · subst same
    simp [apart.resolve_left (by simp)]
  · simp [same]

@[simp] theorem flushed_deliver (parcels : List Parcel) : (ml.deliver ins stream groups parcels).flushed =
      ml.flushed ++ parcels.map fun parcel => Flushed.mk ins stream parcel := rfl

theorem deliver_self : ml.deliver ins stream (ml.groupsOf ins stream) [] = ml := by
  simp [deliver]

structure Frame (before after : Ml) : Prop where
  created : after.created = before.created
  lru : after.lru = before.lru
  lastStreamId : after.lastStreamId = before.lastStreamId
  appended : after.appended = before.appended

theorem Frame.refl (ml : Ml) : Frame ml ml := ⟨rfl, rfl, rfl, rfl⟩

theorem Frame.trans {first second third : Ml} (left : Frame first second) (right : Frame second third) :
    Frame first third :=
  ⟨right.created.trans left.created, right.lru.trans left.lru, right.lastStreamId.trans left.lastStreamId,
    right.appended.trans left.appended⟩

theorem frame_deliver (parcels : List Parcel) : Frame ml (ml.deliver ins stream groups parcels) := ⟨rfl, rfl, rfl, rfl⟩

theorem frame_flushStream (target : StreamId) : Frame ml (ml.flushStream config now ins target) :=
  frame_deliver _ _

theorem flushParserInstance_induction {motive : Ml → Prop} (initial : motive ml)
    (flush : ∀ (ml : Ml) (target : StreamId), target ∈ ml.created → (stream = 0 ∨ target = stream) → motive ml →
      motive (ml.flushStream config now ins target)) : motive (ml.flushParserInstance config ins stream now) ∧
      Frame ml (ml.flushParserInstance config ins stream now) := by
  have loop : ∀ (targets : List StreamId) (state : Ml), Frame ml state → motive state →
      (∀ target ∈ targets, target ∈ ml.created ∧ (stream = 0 ∨ target = stream)) →
      motive (targets.foldl (flushStream config now ins) state) ∧
        Frame ml (targets.foldl (flushStream config now ins) state) := by
    intro targets
    induction targets with
    | nil =>
      intro state frame holds _
      exact ⟨holds, frame⟩
    | cons target targets ih =>
      intro state frame holds admitted
      obtain ⟨created, meant⟩ := admitted target (by simp)
      apply ih
      · exact frame.trans (frame_flushStream target)
      · exact flush state target (frame.created ▸ created) meant holds
      · intro later member
        exact admitted later (List.mem_cons_of_mem _ member)
  apply loop _ ml (Frame.refl ml) initial
  intro target member
  simpa using List.mem_filter.mp member

theorem frame_flushParserInstance : Frame ml (ml.flushParserInstance config ins stream now) :=
  (@flushParserInstance_induction config ml ins stream now (fun _ => True) trivial fun _ _ _ _ _ => trivial).2

theorem groupsOf_flushParserInstance_of_ne (apart : other ≠ ins) (target : StreamId) :
    (ml.flushParserInstance config ins stream now).groupsOf other target = ml.groupsOf other target := by
  apply (@flushParserInstance_induction config ml ins stream now
    (fun after => after.groupsOf other target = ml.groupsOf other target) rfl _).1
  intro state flushed _ _ holds
  exact (groupsOf_deliver_of_ne (.inl apart)).trans holds

/-! ### Attempts -/

def lineOf (config : Config) (ins : Ins) (input : Input) (now : Nat) : Option Line :=
  (convert (config.parser ins) input).bind (selectLine (config.parser ins) input now)

def accepts (config : Config) (ml : Ml) (stream : StreamId) (input : Input) (now : Nat) (ins : Ins) : Bool :=
  (ml.tryParser config ins stream input now).1

def Room (config : Config) (ml : Ml) (stream : StreamId) (input : Input) (now : Nat) (ins : Ins) : Prop :=
  ∀ line, lineOf config ins input now = some line →
    (streamGroupGet (config.parser ins) (ml.groupsOf ins stream) line.group).isSome

def Widened (before after : List StreamGroup) : Prop := after = before ∨ ∃ name, after = before ++ [.create name]

theorem streamGroupGet_cases {parser : Parser} {groups after : List StreamGroup} {name : Option Bytes} {place : Nat}
    (found : streamGroupGet parser groups name = some (place, after)) :
    Widened groups after ∧ (groups ≠ [] → place < after.length) := by
  unfold streamGroupGet at found
  split at found
  next name _ =>
    split at found
    next index here =>
      cases found
      exact ⟨.inl rfl, fun _ => (List.findIdx?_eq_some_iff_findIdx_eq.mp here).1⟩
    · split at found
      · cases found
      · cases found
        exact ⟨.inr ⟨name, rfl⟩, by simp⟩
  · cases found
    exact ⟨.inl rfl, List.length_pos_iff.mpr⟩

structure Taken (config : Config) (ml : Ml) (ins : Ins) (stream : StreamId) (input : Input) (now : Nat)
    (after : Ml) where
  line : Line
  place : Nat
  groups : List StreamGroup
  group : StreamGroup
  result : StreamGroup × List Parcel
  made : lineOf config ins input now = some line
  got : streamGroupGet (config.parser ins) (ml.groupsOf ins stream) line.group = some (place, groups)
  here : groups[place]? = some group
  packaged : packageContent config.hash (config.parser ins) now (ml.appended stream).length line group = some result
  state : after = ml.deliver ins stream (groups.set place result.1) result.2

inductive Outcome (config : Config) (ml : Ml) (ins : Ins) (stream : StreamId) (input : Input) (now : Nat) :
    Bool × Ml → Prop where
  | pointless : ml.crashed = true ∨ stream ∉ ml.created → Outcome config ml ins stream input now (true, ml)
  | refused {groups : List StreamGroup} : Widened (ml.groupsOf ins stream) groups →
      Outcome config ml ins stream input now (false, ml.deliver ins stream groups [])
  | crashed : ¬ Room config ml stream input now ins ∨ ml.groupsOf ins stream = [] →
      Outcome config ml ins stream input now (true, { ml with crashed := true })
  | taken {after : Ml} : Taken config ml ins stream input now after →
      Outcome config ml ins stream input now (true, after)

/-- What one parser can do with a line. -/
theorem tryParser_outcome (config : Config) (ml : Ml) (ins : Ins) (stream : StreamId) (input : Input) (now : Nat) :
    Outcome config ml ins stream input now (ml.tryParser config ins stream input now) := by
  unfold tryParser
  cases alive : ml.crashed with
  | true => exact .pointless (.inl alive)
  | false =>
    rw [if_neg (by simp)]
    cases converted : convert (config.parser ins) input with
    | none =>
      have unchanged := @Outcome.refused config ml ins stream input now _ (.inl rfl)
      rw [deliver_self] at unchanged
      exact unchanged
    | some conv =>
      by_cases created : stream ∈ ml.created
      · simp only [created, if_true]
        unfold attempt
        cases selected : selectLine (config.parser ins) input now conv with
        | none => exact .refused (.inl rfl)
        | some line =>
          have made : lineOf config ins input now = some line := by simp [lineOf, converted, selected]
          simp only
          cases got : streamGroupGet (config.parser ins) (ml.groupsOf ins stream) line.group with
          | none =>
            cases reads : readsGroup (config.parser ins) line with
            | false => exact .refused (.inl rfl)
            | true =>
              refine .crashed (.inl ?_)
              intro room
              simpa [got] using room line made
          | some found =>
            obtain ⟨place, groups⟩ := found
            obtain ⟨widened, bound⟩ := streamGroupGet_cases got
            simp only
            cases here : groups[place]? with
            | none =>
              refine .crashed (.inr ?_)
              by_contra opened
              exact absurd (bound opened) (Nat.not_lt.mpr (List.getElem?_eq_none_iff.mp here))
            | some group =>
              simp only
              cases packaged : packageContent config.hash (config.parser ins) now
                  (ml.appended stream).length line group with
              | none => exact .refused widened
              | some result =>
                exact .taken ⟨line, place, groups, group, result, made, got, here, packaged, rfl⟩
      · simp only [created, if_false]
        exact .pointless (.inr created)

theorem tryParser_cases (alive : ml.crashed = false) (created : stream ∈ ml.created)
    (nonempty : ml.groupsOf ins stream ≠ []) (room : Room config ml stream input now ins) :
    ((ml.tryParser config ins stream input now).1 = false ∧ ∃ groups, Widened (ml.groupsOf ins stream) groups ∧
          (ml.tryParser config ins stream input now).2 = ml.deliver ins stream groups []) ∨
      ((ml.tryParser config ins stream input now).1 = true ∧
        Nonempty (Taken config ml ins stream input now (ml.tryParser config ins stream input now).2)) := by
  have outcome := tryParser_outcome config ml ins stream input now
  generalize ml.tryParser config ins stream input now = result at outcome ⊢
  cases outcome with
  | pointless lost =>
    rcases lost with crashed | unknown
    · simp [crashed] at alive
    · exact absurd created unknown
  | refused widened => exact .inl ⟨rfl, _, widened, rfl⟩
  | crashed lost =>
    rcases lost with full | empty
    · exact absurd room full
    · exact absurd empty nonempty
  | taken took => exact .inr ⟨rfl, ⟨took⟩⟩

end Ml

end FluentBit.Multiline
