import FluentBit.Foundation.Runs
import FluentBit.Multiline.Engine

/-! The metadata of a multiline record. A flush drops the metadata of a group before it
writes it, and the line that triggers a flush adds its metadata after it, so a record
has the metadata of its messages only as long as the parsers take messages without. -/

set_option autoImplicit false

namespace FluentBit.Multiline

open List Bool Function
open Ml

def Input.entries (input : Input) : Map := input.metadata.getD []

/-- The record has the metadata of the messages it is made of and no other. -/
def Flushed.Carries (inputs : StreamId → List Input) (flushed : Flushed) : Prop :=
  ∀ entry, entry ∈ flushed.parcel.record.metadata ↔
    ∃ piece ∈ flushed.parcel.pieces, ∃ input, (inputs flushed.stream)[piece.index]? = some input ∧
      entry ∈ input.entries

def Flushed.Noted (inputs : StreamId → List Input) (flushed : Flushed) : Prop :=
  flushed.Carries inputs ∧ ∀ piece ∈ flushed.parcel.pieces, piece.index < (inputs flushed.stream).length

def Piece.Bare (inputs : List Input) (piece : Piece) : Prop :=
  ∃ input, inputs[piece.index]? = some input ∧ input.entries = []

structure StreamGroup.Bare (inputs : List Input) (group : StreamGroup) : Prop where
  metadata : ∀ map ∈ group.metadata, map = []
  pieces : ∀ piece ∈ group.pieces, piece.Bare inputs

structure Parcel.Bare (inputs : List Input) (parcel : Parcel) : Prop where
  metadata : parcel.record.metadata = []
  pieces : ∀ piece ∈ parcel.pieces, piece.Bare inputs

structure BareResult (inputs : List Input) (result : StreamGroup × List Parcel) : Prop where
  group : result.1.Bare inputs
  parcels : ∀ parcel ∈ result.2, parcel.Bare inputs

section

variable {inputs : List Input} {parser : Parser} {group : StreamGroup} {hash : Value × Value → Nat} {now : Nat}
  {line : Line} {index : Nat}

theorem bare_create (name : Bytes) : (StreamGroup.create name).Bare inputs :=
  ⟨by simp [StreamGroup.create], by simp [StreamGroup.create]⟩

theorem StreamGroup.Bare.breaklinePrepare (bare : group.Bare inputs) : (breaklinePrepare parser group).Bare inputs := by
  rcases breaklinePrepare_cases parser group with same | broken
  · rw [same]
    exact bare
  · rw [broken]
    exact ⟨bare.metadata, bare.pieces⟩

theorem flushMetadataBuffer_bare {metadata : List Map} (bare : ∀ map ∈ metadata, map = []) :
    flushMetadataBuffer hash metadata = [] := by
  have none : metadata.flatten = [] := flatten_eq_nil_iff.mpr bare
  simp [flushMetadataBuffer, none, deduplicate]

theorem composeRecord_metadata (parser : Parser) (group : StreamGroup) :
    (composeRecord parser group).2.metadata = [] ∨ (composeRecord parser group).2.metadata = group.metadata := by
  unfold composeRecord
  split
  · exact .inl rfl
  · split
    · exact .inr rfl
    · exact .inr rfl

theorem StreamGroup.Bare.flush (bare : group.Bare inputs) :
    BareResult inputs (flushStreamGroup hash parser now group) := by
  have prepared := @StreamGroup.Bare.breaklinePrepare inputs parser group bare
  unfold flushStreamGroup
  generalize Multiline.breaklinePrepare parser group = ready at prepared ⊢
  have left : ∀ map ∈ (composeRecord parser ready).2.metadata, map = [] := by
    rcases composeRecord_metadata parser ready with none | same
    · simp [none]
    · rw [same]
      exact prepared.metadata
  constructor
  · exact ⟨left, by simp⟩
  · intro parcel member
    obtain ⟨body, _, rfl⟩ := Option.map_eq_some_iff.mp (Option.mem_toList.mp member)
    exact ⟨flushMetadataBuffer_bare left, prepared.pieces⟩

theorem StreamGroup.Bare.add (bare : group.Bare inputs)
    (fresh : Piece.Bare inputs { index, text := line.content }) : (group.add index line).Bare inputs := by
  refine ⟨bare.metadata, ?_⟩
  intro piece member
  rcases mem_append.mp member with earlier | new
  · exact bare.pieces piece earlier
  · obtain rfl := mem_singleton.mp new
    exact fresh

theorem StreamGroup.Bare.kept (bare : group.Bare inputs) : BareResult inputs (group, []) := ⟨bare, by simp⟩

theorem StreamGroup.Bare.concatenate (bare : group.Bare inputs) (complete : Bool)
    (fresh : Piece.Bare inputs { index, text := line.content }) :
    BareResult inputs (concatenate hash parser now complete index line group) := by
  have registered : (if group.context = [] then registerContext line group else group).Bare inputs := by
    split
    · exact ⟨bare.metadata, bare.pieces⟩
    · exact bare
  have joined := (@StreamGroup.Bare.breaklinePrepare inputs parser _ registered).add fresh
  unfold Multiline.concatenate
  simp only
  split
  · exact joined.flush
  · exact joined.kept

theorem StreamGroup.Bare.continueWith (bare : group.Bare inputs) (rule : Rule)
    (fresh : Piece.Bare inputs { index, text := line.content }) : (continueWith rule index line group).Bare inputs := by
  obtain ⟨_, metadata, pieces⟩ := continueWith_pieces rule index line group
  have added := bare.add fresh
  refine ⟨?_, ?_⟩
  · rw [metadata]
    exact bare.metadata
  · rw [pieces]
    exact added.pieces

variable {result : StreamGroup × List Parcel}

theorem StreamGroup.Bare.ruleProcess (bare : group.Bare inputs) (rules : List Rule)
    (fresh : Piece.Bare inputs { index, text := line.content })
    (processed : ruleProcess hash parser now rules index line group = some result) : BareResult inputs result := by
  unfold Multiline.ruleProcess at processed
  split at processed
  next rule _ =>
    cases processed
    have joined := bare.continueWith rule fresh
    rcases tryFlushingBuffer_cases hash parser now rules (Multiline.continueWith rule index line group) with
      flushed | kept
    · rw [flushed]
      exact joined.flush
    · rw [kept]
      exact joined.kept
  · split at processed
    next rule _ =>
      cases processed
      have flushed : BareResult inputs (if group.buf = [] then (group, []) else flushStreamGroup hash parser now group) := by
        split
        · exact bare.kept
        · exact bare.flush
      have added := (show StreamGroup.Bare inputs { (if group.buf = [] then (group, []) else
          flushStreamGroup hash parser now group).1 with ruleToState := some rule } from
        ⟨flushed.group.metadata, flushed.group.pieces⟩).add fresh
      exact ⟨⟨added.metadata, added.pieces⟩, flushed.parcels⟩
    · cases processed

theorem StreamGroup.Bare.packageContent (bare : group.Bare inputs)
    (fresh : Piece.Bare inputs { index, text := line.content }) (empty : ∀ map ∈ line.metadata, map = [])
    (processed : packageContent hash parser now index line group = some result) : BareResult inputs result := by
  unfold Multiline.packageContent at processed
  obtain ⟨before, taken, rfl⟩ := Option.map_eq_some_iff.mp processed
  have kept : BareResult inputs before := by
    cases kind : parser.kind with
    | regex rules =>
      simp only [kind] at taken
      exact bare.ruleProcess rules fresh taken
    | endswith =>
      simp only [kind] at taken
      split at taken
      · cases taken
        exact bare.concatenate _ fresh
      · cases taken
    | eq =>
      simp only [kind] at taken
      cases taken
      exact bare.concatenate _ fresh
  refine ⟨⟨?_, kept.group.pieces⟩, kept.parcels⟩
  intro map member
  rcases mem_append.mp member with earlier | new
  · exact kept.group.metadata map earlier
  · exact empty map (by simpa using new)

end

/-! ### The engine -/

structure Plain (inputs : StreamId → List Input) (ml : Ml) : Prop where
  buffers : ∀ ins stream, ∀ group ∈ ml.groupsOf ins stream, group.Bare (inputs stream)
  records : ∀ flushed ∈ ml.flushed, flushed.Noted inputs

section

variable {config : Config} {inputs : StreamId → List Input} {ml : Ml} {ins : Ins} {stream : StreamId} {input : Input}
  {now : Nat}

theorem Parcel.Bare.noted {parcel : Parcel} (bare : parcel.Bare (inputs stream)) :
    (Flushed.mk ins stream parcel).Noted inputs := by
  constructor
  · intro entry
    constructor
    · intro member
      simp [bare.metadata] at member
    · intro found
      obtain ⟨piece, member, source, here, inside⟩ := found
      obtain ⟨same, there, empty⟩ := bare.pieces piece member
      obtain rfl := Option.some.inj (there.symm.trans here)
      simp [empty] at inside
  · intro piece member
    obtain ⟨source, there, _⟩ := bare.pieces piece member
    exact (List.getElem?_eq_some_iff.mp there).1

variable {groups : List StreamGroup} {index tm : Nat}

theorem Plain.deliver (plain : Plain inputs ml) {parcels : List Parcel}
    (bare : ∀ group ∈ groups, group.Bare (inputs stream))
    (noted : ∀ parcel ∈ parcels, (Flushed.mk ins stream parcel).Noted inputs) :
    Plain inputs (ml.deliver ins stream groups parcels) := by
  constructor
  · intro other target
    by_cases same : other = ins ∧ target = stream
    · obtain ⟨rfl, rfl⟩ := same
      rw [groupsOf_deliver_self]
      exact bare
    · rw [groupsOf_deliver_of_ne (by tauto)]
      exact plain.buffers other target
  · intro flushed member
    rcases mem_append.mp member with earlier | new
    · exact plain.records flushed earlier
    · obtain ⟨parcel, among, rfl⟩ := mem_map.mp new
      exact noted parcel among

theorem Plain.flushStream (plain : Plain inputs ml) : Plain inputs (ml.flushStream config now ins stream) := by
  apply plain.deliver
  · intro group member
    simp only [map_map, mem_map, comp_apply] at member
    obtain ⟨before, among, rfl⟩ := member
    exact (plain.buffers ins stream before among).flush.group
  · intro parcel member
    simp only [flatMap_map, mem_flatMap] at member
    obtain ⟨before, among, out⟩ := member
    exact ((plain.buffers ins stream before among).flush.parcels parcel out).noted

theorem Plain.flushParserInstance (plain : Plain inputs ml) :
    Plain inputs (ml.flushParserInstance config ins stream now) := by
  apply (@flushParserInstance_induction config ml ins stream now (Plain inputs) plain _).1
  intro state target _ _ plain
  exact plain.flushStream

theorem Plain.widened (plain : Plain inputs ml) (widened : Widened (ml.groupsOf ins stream) groups) :
    ∀ group ∈ groups, group.Bare (inputs stream) := by
  intro group member
  rcases widened with rfl | ⟨name, rfl⟩
  · exact plain.buffers ins stream group member
  · rcases mem_append.mp member with earlier | new
    · exact plain.buffers ins stream group earlier
    · rw [mem_singleton.mp new]
      exact bare_create name

theorem lineOf_metadata {line : Line} (made : lineOf config ins input now = some line)
    (empty : input.entries = []) : ∀ map ∈ line.metadata, map = [] := by
  unfold lineOf at made
  obtain ⟨converted, _, selected⟩ := Option.bind_eq_some_iff.mp made
  unfold selectLine at selected
  cases map : converted.map with
  | none =>
    simp only [map, Option.some.injEq] at selected
    subst selected
    simp
  | some entries =>
    simp only [map] at selected
    obtain ⟨content, _, rfl⟩ := Option.map_eq_some_iff.mp selected
    intro metadata found
    have here : input.metadata = some metadata := found
    simpa [Input.entries, here] using empty

theorem Plain.tryParser (plain : Plain inputs ml) (current : (inputs stream)[(ml.appended stream).length]? = some input)
    (empty : accepts config ml stream input now ins = true → input.entries = []) :
    Plain inputs (ml.tryParser config ins stream input now).2 ∧
      (ml.tryParser config ins stream input now).2.appended = ml.appended := by
  have outcome := tryParser_outcome config ml ins stream input now
  unfold accepts at empty
  generalize ml.tryParser config ins stream input now = result at outcome empty ⊢
  cases outcome with
  | pointless => exact ⟨plain, rfl⟩
  | refused widened => exact ⟨plain.deliver (plain.widened widened) (by simp), rfl⟩
  | crashed => exact ⟨⟨plain.buffers, plain.records⟩, rfl⟩
  | taken took =>
    have none := empty rfl
    obtain ⟨line, place, groups, group, result, made, got, here, packaged, rfl⟩ := took
    have bare := plain.widened (streamGroupGet_cases got).1
    have fresh : Piece.Bare (inputs stream) { index := (ml.appended stream).length, text := line.content } :=
      ⟨input, current, none⟩
    have kept := (bare group (mem_of_getElem? here)).packageContent fresh (lineOf_metadata made none) packaged
    refine ⟨plain.deliver ?_ fun parcel member => (kept.parcels parcel member).noted, rfl⟩
    intro changed member
    rcases mem_or_eq_of_mem_set member with earlier | rfl
    · exact bare changed earlier
    · exact kept.group

theorem Plain.lruLoop (groups : List (List Ins)) (index : Nat) {pass : Pass} (plain : Plain inputs pass.ml)
    (current : (inputs stream)[(pass.ml.appended stream).length]? = some input)
    (empty : (Ml.lruLoop config stream input now index groups pass).processed = true → input.entries = []) :
    Plain inputs (Ml.lruLoop config stream input now index groups pass).ml ∧
      (Ml.lruLoop config stream input now index groups pass).ml.appended = pass.ml.appended := by
  induction groups generalizing index pass with
  | nil => exact ⟨plain, rfl⟩
  | cons head rest ih =>
    unfold Ml.lruLoop at empty ⊢
    cases found : pass.ml.lru index with
    | none =>
      simp only [found] at empty ⊢
      exact ih (index + 1) plain current empty
    | some last =>
      simp only [found] at empty ⊢
      by_cases mine : pass.ml.lastStreamId last = stream
      · simp only [mine, if_true] at empty ⊢
        cases willing : (pass.ml.tryParser config last stream input now).1 with
        | true =>
          simp only [willing, if_true] at empty ⊢
          exact plain.tryParser current fun _ => empty trivial
        | false =>
          simp only [willing, false_eq_true, if_false] at empty ⊢
          obtain ⟨tried, same⟩ := @Plain.tryParser config inputs pass.ml last stream input now plain current (by
            intro taken
            simp [accepts, willing] at taken)
          have kept := @frame_flushParserInstance config (pass.ml.tryParser config last stream input now).2 last
            stream now
          obtain ⟨result, appended⟩ := ih (index + 1) tried.flushParserInstance
            (by rw [kept.appended, same]; exact current) empty
          exact ⟨result, appended.trans (kept.appended.trans same)⟩
      · simp only [mine, if_false] at empty ⊢
        split at empty
        · rw [if_pos ‹_›]
          exact ih (index + 1) plain current empty
        · rw [if_neg ‹_›]
          exact ih (index + 1) plain current empty

theorem Plain.parserLoop (lru : Option Ins) (parsers : List Ins) {ml : Ml} (plain : Plain inputs ml)
    (current : (inputs stream)[(ml.appended stream).length]? = some input)
    (empty : (ml.parserLoop config stream input now lru parsers).1.isSome = true → input.entries = []) :
    Plain inputs (ml.parserLoop config stream input now lru parsers).2 ∧
      (ml.parserLoop config stream input now lru parsers).2.appended = ml.appended := by
  induction parsers generalizing ml with
  | nil => exact ⟨plain, rfl⟩
  | cons head rest ih =>
    unfold Ml.parserLoop at empty ⊢
    by_cases skipped : ml.skips stream input lru head = true
    · simp only [skipped, if_true] at empty ⊢
      exact ih plain current empty
    · simp only [skipped, false_eq_true, if_false] at empty ⊢
      cases willing : (ml.tryParser config head stream input now).1 with
      | true =>
        simp only [willing, if_true] at empty ⊢
        exact plain.tryParser current fun _ => empty rfl
      | false =>
        simp only [willing, false_eq_true, if_false] at empty ⊢
        obtain ⟨tried, same⟩ := @Plain.tryParser config inputs ml head stream input now plain current (by
          intro taken
          simp [accepts, willing] at taken)
        obtain ⟨result, appended⟩ := ih tried (by rw [same]; exact current) empty
        exact ⟨result, appended.trans same⟩

theorem Plain.flushText (plain : Plain inputs ml) {buf : Bytes}
    (current : (inputs stream)[index]? = some (.text tm buf)) :
    Plain inputs (ml.flushText config ins stream now index buf) := by
  unfold Ml.flushText
  cases groups : ml.groupsOf ins stream with
  | nil => exact ⟨plain.buffers, plain.records⟩
  | cons group rest =>
    have bare : ∀ other ∈ group :: rest, other.Bare (inputs stream) := by
      intro other member
      exact plain.buffers ins stream other (by rw [groups]; exact member)
    have fresh : Piece.Bare (inputs stream) { index, text := buf } := ⟨_, current, rfl⟩
    have kept := @StreamGroup.Bare.flush (inputs stream) (config.parser ins) _ config.hash now
      (@StreamGroup.Bare.add (inputs stream) group
        { map := none, content := buf, pattern := none, group := none, time := 0, metadata := none } index
        (bare group (by simp)) fresh)
    apply plain.deliver
    · intro other member
      rcases mem_cons.mp member with rfl | later
      · exact kept.group
      · exact bare other (mem_cons_of_mem _ later)
    · intro parcel member
      exact (kept.parcels parcel member).noted

theorem Plain.flushObject (plain : Plain inputs ml) {metadata body : Map}
    (current : (inputs stream)[index]? = some (.object tm metadata body)) :
    Plain inputs (ml.flushObject ins stream index tm metadata body) := by
  unfold Ml.flushObject
  cases groups : ml.groupsOf ins stream with
  | nil => exact ⟨plain.buffers, plain.records⟩
  | cons group rest =>
    have bare : ∀ other ∈ group :: rest, other.Bare (inputs stream) := by
      intro other member
      exact plain.buffers ins stream other (by rw [groups]; exact member)
    apply plain.deliver
    · intro other member
      rcases mem_cons.mp member with rfl | later
      · exact ⟨(bare group (by simp)).metadata, by simp⟩
      · exact bare other (mem_cons_of_mem _ later)
    · intro parcel member
      obtain rfl := mem_singleton.mp member
      constructor
      · intro entry
        constructor
        · intro inside
          exact ⟨{ index, text := [] }, mem_singleton.mpr rfl, .object tm metadata body, current, inside⟩
        · intro found
          obtain ⟨piece, among, source, here, inside⟩ := found
          obtain rfl := mem_singleton.mp among
          obtain rfl := Option.some.inj (current.symm.trans here)
          exact inside
      · intro piece among
        obtain rfl := mem_singleton.mp among
        exact (List.getElem?_eq_some_iff.mp current).1

theorem Plain.passOn (plain : Plain inputs ml) (lru : Option Ins) (parsers : List Ins)
    (current : (inputs stream)[(ml.appended stream).length]? = some input) :
    Plain inputs (ml.passOn config stream input now lru parsers) := by
  have flushed : Plain inputs (ml.flushLast config stream now lru) := by
    unfold flushLast
    split
    · exact plain.flushParserInstance
    · exact plain
  unfold Ml.passOn
  simp only
  split
  · exact ⟨flushed.buffers, flushed.records⟩
  · split
    · cases input with
      | text tm buf => exact flushed.flushParserInstance.flushText current
      | object tm metadata body => exact flushed.flushParserInstance.flushObject current
    · exact flushed.flushParserInstance

theorem appended_passOn (lru : Option Ins) (parsers : List Ins) :
    (ml.passOn config stream input now lru parsers).appended = ml.appended := by
  have flushed : (ml.flushLast config stream now lru).appended = ml.appended := by
    unfold flushLast
    split
    · exact frame_flushParserInstance.appended
    · rfl
  unfold Ml.passOn
  simp only
  split
  · exact flushed
  next ins _ =>
    have twice := (@frame_flushParserInstance config (ml.flushLast config stream now lru) ins stream now).appended
    split
    · cases input with
      | text tm buf =>
        simp only [Ml.flushText]
        split
        · exact twice.trans flushed
        · exact twice.trans flushed
      | object tm metadata body =>
        simp only [Ml.flushObject]
        split
        · exact twice.trans flushed
        · exact twice.trans flushed
    · exact twice.trans flushed

theorem Plain.mono {more : StreamId → List Input} (plain : Plain inputs ml)
    (longer : ∀ stream, inputs stream <+: more stream) : Plain more ml := by
  have same : ∀ stream (index : Nat), index < (inputs stream).length →
      (more stream)[index]? = (inputs stream)[index]? := by
    intro stream index bound
    obtain ⟨tail, extended⟩ := longer stream
    rw [← extended, List.getElem?_append_left bound]
  constructor
  · intro ins stream group member
    have bare := plain.buffers ins stream group member
    refine ⟨bare.metadata, ?_⟩
    intro piece inside
    obtain ⟨input, found, empty⟩ := bare.pieces piece inside
    exact ⟨input, (same stream _ (List.getElem?_eq_some_iff.mp found).1).trans found, empty⟩
  · intro flushed member
    obtain ⟨carries, known⟩ := plain.records flushed member
    constructor
    · intro entry
      rw [carries entry]
      constructor
      · rintro ⟨piece, inside, input, found, has⟩
        exact ⟨piece, inside, input, (same _ _ (known piece inside)).trans found, has⟩
      · rintro ⟨piece, inside, input, found, has⟩
        exact ⟨piece, inside, input, (same _ _ (known piece inside)).symm.trans found, has⟩
    · intro piece inside
      exact Nat.lt_of_lt_of_le (known piece inside) (longer flushed.stream).length_le

/-- Whether a parser takes the input: the variable `processed` at the end of the loops. -/
def processes (config : Config) (ml : Ml) (stream : StreamId) (input : Input) (now : Nat) : Bool :=
  let pass := Ml.lruLoop config stream input now 0 config.groups { processed := false, group := 0, lru := none, ml }
  pass.processed ||
    (pass.ml.parserLoop config stream input now pass.lru (config.groups.getD pass.group [])).1.isSome

theorem Plain.append (plain : Plain ml.appended ml)
    (empty : processes config ml stream input now = true → input.entries = []) :
    Plain (ml.append config stream input now).appended (ml.append config stream input now) := by
  have current : (Function.update ml.appended stream (ml.appended stream ++ [input]) stream)[
      (ml.appended stream).length]? = some input := by
    simp
  have before : Plain (Function.update ml.appended stream (ml.appended stream ++ [input])) ml := by
    apply plain.mono
    intro target
    by_cases same : target = stream
    · subst same
      simp
    · simp [same]
  unfold processes at empty
  unfold Ml.append
  simp only at empty ⊢
  have started := @Plain.lruLoop config _ stream input now config.groups 0
    { processed := false, group := 0, lru := none, ml } before current (fun processed => empty (by simp [processed]))
  generalize Ml.lruLoop config stream input now 0 config.groups { processed := false, group := 0, lru := none, ml } =
    pass at empty started ⊢
  obtain ⟨started, same⟩ := started
  have looped := @Plain.parserLoop config _ stream input now pass.lru (config.groups.getD pass.group []) pass.ml
    started (by rw [same]; exact current) (fun taken => empty (by rw [taken, Bool.or_true]))
  generalize pass.ml.parserLoop config stream input now pass.lru (config.groups.getD pass.group []) = tried
    at looped ⊢
  obtain ⟨looped, appended⟩ := looped
  have all := appended.trans same
  cases found : tried.1 with
  | some ins =>
    simp only
    rw [all]
    exact ⟨looped.buffers, looped.records⟩
  | none =>
    simp only
    split
    · rw [all]
      exact ⟨looped.buffers, looped.records⟩
    · rw [appended_passOn, all]
      have passed := @Plain.passOn config _ tried.2 stream input now looped pass.lru
        (config.groups.getD pass.group []) (by rw [all]; exact current)
      exact ⟨passed.buffers, passed.records⟩

def Unmarked (config : Config) (ml : Ml) : Event → Prop
  | .append stream input now => processes config ml stream input now = true → input.entries = []
  | _ => True

theorem Plain.flushPending (plain : Plain ml.appended ml) (now : Nat) :
    Plain (ml.flushPending config now).appended (ml.flushPending config now) := by
  have loop : ∀ (parsers : List Ins) (state : Ml), Plain ml.appended state → state.appended = ml.appended →
      Plain ml.appended (parsers.foldl (fun ml ins => ml.flushParserInstance config ins 0 now) state) ∧
        (parsers.foldl (fun ml ins => ml.flushParserInstance config ins 0 now) state).appended = ml.appended := by
    intro parsers
    induction parsers with
    | nil =>
      intro state plain same
      exact ⟨plain, same⟩
    | cons head parsers ih =>
      intro state plain same
      exact ih _ plain.flushParserInstance (frame_flushParserInstance.appended.trans same)
  obtain ⟨result, same⟩ := loop (config.groups.headD []) ml plain rfl
  unfold Ml.flushPending
  rw [same]
  exact result

theorem Plain.step (plain : Plain ml.appended ml) (event : Event) (unmarked : Unmarked config ml event) :
    Plain (step config event ml).appended (step config event ml) := by
  unfold Multiline.step
  split
  · exact plain
  · cases event with
    | streamCreate stream =>
      simp only [Ml.streamCreate]
      split
      · exact plain
      · refine ⟨?_, plain.records⟩
        intro ins target group member
        by_cases same : target = stream
        · subst same
          simp only [update_self, mem_singleton] at member
          rw [member]
          exact bare_create _
        · simp only [update_of_ne same] at member
          exact plain.buffers ins target group member
    | append stream input now => exact plain.append unmarked
    | flushPending now => exact plain.flushPending now

/-- In a run whose parsers take only messages without metadata, every record has the
metadata of the messages in it. -/
theorem carries_of_unmarked (path : Runs.Path (step config) (Unmarked config) .initial ml) :
    ∀ flushed ∈ ml.flushed, flushed.Carries ml.appended := by
  have plain : Plain ml.appended ml := path.invariant (fun ml => Plain ml.appended ml)
    ⟨by simp [Ml.initial], by simp [Ml.initial]⟩ fun _ event plain unmarked => plain.step event unmarked
  intro flushed member
  exact (plain.records flushed member).1

end

/-- A parser of the key `log` that ends a message at a full stop. -/
def logUntilStop : Config :=
  { groups := [[0]]
    parser := fun _ =>
      { kind := .eq, matchStr := [46], negate := false, keyContent := some logKey, keyPattern := none
        keyGroup := none, grouped := false, parser := none }
    hash := fun _ => 0
    distinct := nodup_single }

def markedApart : List Event :=
  [.streamCreate 7, .append 7 (.object 1 [] [(.str logKey, .str [97])]) 1,
    .append 7 (.object 2 [(.other 1, .other 2)] [(.other 3, .other 4)]) 2]

theorem carries_of_unmarked_markedApart : (∀ flushed ∈ (Runs.after (step logUntilStop) .initial markedApart).flushed,
        flushed.Carries (Runs.after (step logUntilStop) .initial markedApart).appended) ∧
      (Runs.after (step logUntilStop) .initial markedApart).flushed.map (fun flushed => flushed.parcel.record.metadata) =
        [[], [(.other 1, .other 2)]] := by
  have apart : processes logUntilStop (Runs.after (step logUntilStop) .initial (markedApart.take 2)) 7
      (.object 2 [(.other 1, .other 2)] [(.other 3, .other 4)]) 2 ≠ true := by
    decide +kernel
  have unmarked : Runs.Admits (step logUntilStop) (Unmarked logUntilStop) .initial markedApart :=
    ⟨trivial, fun _ => rfl, fun taken => absurd taken apart, trivial⟩
  exact ⟨carries_of_unmarked (Runs.path_after markedApart unmarked), by decide +kernel⟩

def markedMessage : List Event :=
  [.streamCreate 7, .append 7 (.object 1 [(.other 1, .other 2)] [(.str logKey, .str [46])]) 1,
    .append 7 (.text 2 [46]) 2]

/-- The metadata of the message is in the record of the text. -/
theorem metadata_in_next_record : (Runs.after (step logUntilStop) .initial markedMessage).flushed.map (fun flushed =>
        (flushed.parcel.pieces.map Piece.index, flushed.parcel.record.metadata)) =
        [([0], []), ([1], [(.other 1, .other 2)])] ∧
      ¬ ∀ flushed ∈ (Runs.after (step logUntilStop) .initial markedMessage).flushed,
        flushed.Carries (Runs.after (step logUntilStop) .initial markedMessage).appended := by
  have records : (Runs.after (step logUntilStop) .initial markedMessage).flushed.map (fun flushed =>
      (flushed.parcel.pieces.map Piece.index, flushed.parcel.record.metadata)) =
      [([0], []), ([1], [(.other 1, .other 2)])] := by
    decide +kernel
  refine ⟨records, ?_⟩
  intro carries
  have first : (Runs.after (step logUntilStop) .initial markedMessage).flushed[0]? = some
      { ins := 0, stream := 7
        parcel :=
          { group := [], pieces := [{ index := 0, text := [46] }]
            record := { time := 1, metadata := [], body := [(.str logKey, .str [46])] } } } := by
    decide +kernel
  have message : ((Runs.after (step logUntilStop) .initial markedMessage).appended 7)[0]? = some
      (.object 1 [(.other 1, .other 2)] [(.str logKey, .str [46])]) := by
    decide +kernel
  have kept := (carries _ (mem_of_getElem? first) (.other 1, .other 2)).mpr
    ⟨{ index := 0, text := [46] }, by simp, _, message, by decide⟩
  simp at kept

end FluentBit.Multiline
