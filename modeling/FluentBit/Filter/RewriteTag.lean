import Mathlib.Data.List.Nodup
import Mathlib.Data.List.Perm.Basic

/-! The rewrite_tag filter and its emitter, after
`plugins/filter_rewrite_tag/rewrite_tag.c` and `plugins/in_emitter/emitter.c`.
Bodies are matched and tags composed by the record accessor, which is a
parameter of the rules. -/

set_option autoImplicit false

namespace FluentBit.RewriteTag

/-- A log event of a chunk; `base` is its offset in the data. -/
structure Event (Body : Type) where
  base : Nat
  body : Body
deriving DecidableEq

structure Chunk (Body : Type) where
  events : List (Event Body)
  distinct : (events.map Event.base).Nodup

/-- `struct rewrite_rule`: whether `flb_ra_regex_match` succeeds on a body, and
the tag `flb_ra_translate` composes from the old one. -/
structure Rule (Body : Type) where
  keepRecord : Bool
  regexMatch : Body → Bool
  translate : String → Body → String

/-- What becomes of the calls for one record. A ring buffer is read by the thread of the emitter meanwhile. -/
structure Attempt where
  translateFails : Bool
  inlineFails : Bool
  refAllocFails : Bool
  paused : Bool
  allocFails : Bool
  ringFull : Bool
  /-- `msgpack_sbuffer_write` -/
  writeFails : Bool

/-- `struct flb_emitter`: the inputs it knows, what was written to its ring buffer if it has one, and its
chunks by tag. -/
structure Emitter (Body : Type) where
  inputs : List Nat
  ring : Option (List (String × List (Event Body)))
  chunks : List (String × List (Event Body))

/-- Where records with a new tag go: the emitter, or the input itself when the
filter runs as a processor of an input. -/
structure Sink (Body : Type) where
  emitter : Emitter Body
  inline : Option (List (String × Event Body))

namespace Emitter

variable {Body : Type}

def appendTo (tag : String) (written : List (Event Body)) :
    List (String × List (Event Body)) → Option (List (String × List (Event Body)))
  | [] => none
  | (name, events) :: rest =>
    if name = tag then some ((name, events ++ written) :: rest)
    else (appendTo tag written rest).map ((name, events) :: ·)

/-- `in_emitter_add_record`, with its return value. -/
def addRecord (attempt : Attempt) (source : Nat) (tag : String) (event : Event Body)
    (emitter : Emitter Body) : Int × Emitter Body :=
  if source ∉ emitter.inputs ∧ attempt.refAllocFails then
    -- FLB_FILTER_NOTOUCH
    (2, emitter)
  else
    let emitter := if source ∈ emitter.inputs then emitter
      else { emitter with inputs := emitter.inputs ++ [source] }
    if attempt.paused then
      -- FLB_EMITTER_BUSY
      (-2, emitter)
    else
      -- the result of `msgpack_sbuffer_write` is not looked at
      let written := if attempt.writeFails then [] else [event]
      match emitter.ring with
      | some messages =>
        if attempt.allocFails || attempt.ringFull then (-1, emitter)
        else (0, { emitter with ring := some (messages ++ [(tag, written)]) })
      | none =>
        match appendTo tag written emitter.chunks with
        | some chunks => (0, { emitter with chunks })
        | none =>
          if attempt.allocFails then (-1, emitter)
          else (0, { emitter with chunks := emitter.chunks ++ [(tag, written)] })

def contents (emitter : Emitter Body) : List (String × Event Body) :=
  (emitter.ring.getD [] ++ emitter.chunks).flatMap fun chunk => chunk.2.map fun event => (chunk.1, event)

end Emitter

variable {Body : Type}

def Sink.contents (sink : Sink Body) : List (String × Event Body) :=
  sink.inline.getD [] ++ sink.emitter.contents

def Sink.emit (attempt : Attempt) (source : Nat) (tag : String) (event : Event Body) (sink : Sink Body) :
    Int × Sink Body :=
  match sink.inline with
  | some ingested =>
    if attempt.inlineFails then
      let (code, emitter) := sink.emitter.addRecord attempt source tag event
      (code, { sink with emitter })
    else
      (0, { sink with inline := some (ingested ++ [(tag, event)]) })
  | none =>
    let (code, emitter) := sink.emitter.addRecord attempt source tag event
    (code, { sink with emitter })

/-- The loop over the rules: `keep` takes the value of every rule tried. -/
def firstRule (body : Body) : List (Rule Body) → Bool → Option (Rule Body) × Bool
  | [], keep => (none, keep)
  | rule :: rules, _ =>
    if rule.regexMatch body then (some rule, rule.keepRecord)
    else firstRule body rules rule.keepRecord

/-- What `process_record` returns and sets. -/
structure Processed (Body : Type) where
  emitted : Bool
  matched : Bool
  keep : Bool
  sink : Sink Body

def processRecord (rules : List (Rule Body)) (source : Nat) (tag : String) (attempt : Attempt)
    (event : Event Body) (keep : Bool) (sink : Sink Body) : Processed Body :=
  match firstRule event.body rules keep with
  | (none, keep) => { emitted := false, matched := false, keep, sink }
  | (some rule, keep) =>
    if attempt.translateFails then
      { emitted := false, matched := true, keep, sink }
    else
      let (code, sink) := sink.emit attempt source (rule.translate tag event.body) event
      { emitted := code ≠ -1, matched := true, keep, sink }

/-- The variables of the loop of `cb_rewrite_tag_filter`. The encoder does not fail. -/
structure Loop (Body : Type) where
  keep : Bool
  emittedNum : Nat
  encoder : List (Event Body)
  sink : Sink Body

def Loop.next (rules : List (Rule Body)) (source : Nat) (tag : String) (attempts : Nat → Attempt)
    (loop : Loop Body) (event : Event Body) : Loop Body :=
  let processed := processRecord rules source tag (attempts event.base) event loop.keep loop.sink
  { keep := processed.keep
    emittedNum := loop.emittedNum + processed.emitted.toNat
    encoder := if processed.keep || !processed.matched then loop.encoder ++ [event] else loop.encoder
    sink := processed.sink }

/-- `keep` is not initialised in the source. -/
def Loop.initial (keep : Bool) (sink : Sink Body) : Loop Body :=
  { keep, emittedNum := 0, encoder := [], sink }

def runLoop (rules : List (Rule Body)) (source : Nat) (tag : String) (attempts : Nat → Attempt)
    (keep : Bool) (chunk : Chunk Body) (sink : Sink Body) : Loop Body :=
  chunk.events.foldl (Loop.next rules source tag attempts) (.initial keep sink)

/-- `cb_rewrite_tag_filter`: the events that go on down the pipeline, and the sink. -/
def cbRewriteTagFilter (rules : List (Rule Body)) (source : Nat) (tag : String) (attempts : Nat → Attempt)
    (keep : Bool) (chunk : Chunk Body) (sink : Sink Body) : List (Event Body) × Sink Body :=
  let loop := runLoop rules source tag attempts keep chunk sink
  if loop.emittedNum = 0 then
    -- FLB_FILTER_NOTOUCH
    (chunk.events, loop.sink)
  else
    (loop.encoder, loop.sink)

/-! No record gets lost: what leaves the pipeline was accepted under its new tag.
The filter keeps this up only while the emitter does not refuse records. -/

open List Bool Option

/-! ### One record -/

def matchingRule (rules : List (Rule Body)) (body : Body) : Option (Rule Body) :=
  rules.find? fun rule => rule.regexMatch body

def retained (rules : List (Rule Body)) (event : Event Body) : Bool :=
  (matchingRule rules event.body).elim true Rule.keepRecord

/-- What a run of the filter is given, next to its chunk. -/
structure Call (Body : Type) where
  rules : List (Rule Body)
  source : Nat
  tag : String
  attempts : Nat → Attempt
  sink : Sink Body

namespace Call

variable (call : Call Body)

def attempt (event : Event Body) : Attempt := call.attempts event.base

/-- The new tag of a record, if a rule matches and the tag can be composed. -/
def newTag (event : Event Body) : Option String :=
  if (call.attempt event).translateFails then none
  else (matchingRule call.rules event.body).map fun rule => rule.translate call.tag event.body

def ingested (event : Event Body) : Bool :=
  (call.newTag event).isSome && call.sink.inline.isSome && !(call.attempt event).inlineFails

/-- The record has a new tag and is not ingested inline: the emitter gets it. -/
def offered (event : Event Body) : Bool := (call.newTag event).isSome && !call.ingested event

/-- The emitter knows the input, from before or since one of the records was offered. -/
def known (records : List (Event Body)) : Bool :=
  decide (call.source ∈ call.sink.emitter.inputs) ||
    records.any fun event => call.offered event && !(call.attempt event).refAllocFails

/-- An offered record, behind `earlier`, finds its input known and the emitter not paused. -/
def admitted (earlier : List (Event Body)) (event : Event Body) : Bool :=
  call.offered event && call.known (event :: earlier) && !(call.attempt event).paused

/-- The tags of the chunks, with those made for the records `earlier`. -/
def opened : List (Event Body) → List String
  | [] => call.sink.emitter.chunks.map Prod.fst
  | event :: earlier =>
    if call.admitted earlier event && !(call.attempt event).allocFails then (call.newTag event).toList ++ opened earlier
    else opened earlier

/-- There is a place for an admitted record: in the ring, or in a chunk with its tag. -/
def fits (earlier : List (Event Body)) (event : Event Body) : Bool :=
  match call.sink.emitter.ring with
  | some _ => !(call.attempt event).allocFails && !(call.attempt event).ringFull
  | none => !(call.attempt event).allocFails || (call.newTag event).any (· ∈ call.opened earlier)

/-- The record is accepted. -/
def stored (earlier : List (Event Body)) (event : Event Body) : Bool :=
  call.ingested event || call.admitted earlier event && call.fits earlier event && !(call.attempt event).writeFails

/-- The record counts as emitted: it has a new tag, and does not lack a place. -/
def counted (earlier : List (Event Body)) (event : Event Body) : Bool :=
  (call.newTag event).isSome && !(call.admitted earlier event && !call.fits earlier event)

end Call

/-- The records of a chunk, each with the ones before it, the last one first. -/
def placed (earlier : List (Event Body)) : List (Event Body) → List (List (Event Body) × Event Body)
  | [] => []
  | event :: events => (earlier, event) :: placed (event :: earlier) events

private theorem placed_snd (earlier events : List (Event Body)) : (placed earlier events).map Prod.snd = events := by
  induction events generalizing earlier with
  | nil => rfl
  | cons event events ih => rw [placed, map_cons, ih]

private theorem firstRule_fst (body : Body) (rules : List (Rule Body)) (keep : Bool) :
    (firstRule body rules keep).1 = matchingRule rules body := by
  induction rules generalizing keep with
  | nil => rfl
  | cons rule rules ih =>
    cases hit : rule.regexMatch body with
    | true => simp [firstRule, matchingRule, hit]
    | false => simpa [firstRule, matchingRule, hit] using ih rule.keepRecord

private theorem firstRule_keep {body : Body} {rules : List (Rule Body)} {keep : Bool} {rule : Rule Body}
    (found : matchingRule rules body = some rule) : (firstRule body rules keep).2 = rule.keepRecord := by
  induction rules generalizing keep with
  | nil => simp [matchingRule] at found
  | cons first rules ih =>
    cases hit : first.regexMatch body with
    | true =>
      obtain rfl : first = rule := by simpa [matchingRule, hit] using found
      simp [firstRule, hit]
    | false =>
      have later : matchingRule rules body = some rule := by simpa [matchingRule, hit] using found
      simpa [firstRule, hit] using ih later

variable {call : Call Body} {earlier : List (Event Body)} {event : Event Body} {now : Sink Body} {name : String}

/-- The sink, when the records `earlier` went through the filter. -/
structure Reached (call : Call Body) (earlier : List (Event Body)) (now : Sink Body) : Prop where
  inline : now.inline.isSome = call.sink.inline.isSome
  inputs : call.source ∈ now.emitter.inputs ↔ call.known earlier = true
  ring : now.emitter.ring.isSome = call.sink.emitter.ring.isSome
  chunks : call.sink.emitter.ring = none → ∀ name, name ∈ now.emitter.chunks.map Prod.fst ↔ name ∈ call.opened earlier

private theorem initial_reached : Reached call [] call.sink := by
  constructor <;> simp [Call.known, Call.opened]

private theorem known_cons :
    call.known (event :: earlier) = (call.known earlier || call.offered event && !(call.attempt event).refAllocFails) := by
  rw [Call.known, Call.known, any_cons, Bool.or_left_comm, Bool.or_comm]

theorem Reached.skip (reached : Reached call earlier now) (unoffered : call.offered event = false) :
    Reached call (event :: earlier) now := by
  refine ⟨reached.inline, ?_, reached.ring, ?_⟩
  · rw [known_cons, unoffered, Bool.false_and, Bool.or_false]
    exact reached.inputs
  · intro chunks
    rw [Call.opened, Call.admitted, unoffered]
    exact reached.chunks chunks

abbrev labelled (chunks : List (String × List (Event Body))) : List (String × Event Body) :=
  chunks.flatMap fun chunk => chunk.2.map fun event => (chunk.1, event)

private theorem appendTo_some {written : List (Event Body)} {chunks after : List (String × List (Event Body))}
    (appended : Emitter.appendTo name written chunks = some after) :
    after.map Prod.fst = chunks.map Prod.fst ∧ name ∈ chunks.map Prod.fst ∧
      (labelled after).Perm ((written.map fun event => (name, event)) ++ labelled chunks) := by
  induction chunks generalizing after with
  | nil => simp [Emitter.appendTo] at appended
  | cons chunk chunks ih =>
    obtain ⟨own, events⟩ := chunk
    simp only [Emitter.appendTo] at appended
    split at appended
    next same =>
      obtain rfl := Option.some.inj appended
      refine ⟨rfl, by simp [same], ?_⟩
      simp only [labelled, same, flatMap_cons, map_append, append_assoc]
      exact perm_append_comm_assoc ..
    · obtain ⟨rest, found, rfl⟩ := map_eq_some_iff.mp appended
      obtain ⟨names, inside, contents⟩ := ih found
      refine ⟨by simp [names], mem_cons_of_mem _ inside, ?_⟩
      exact (contents.append_left _).trans (perm_append_comm_assoc ..)

private theorem appendTo_none {written : List (Event Body)} {chunks : List (String × List (Event Body))}
    (missing : Emitter.appendTo name written chunks = none) : name ∉ chunks.map Prod.fst := by
  induction chunks with
  | nil => simp
  | cons chunk chunks ih =>
    simp only [Emitter.appendTo] at missing
    split at missing
    · cases missing
    next other => exact not_mem_cons_of_ne_of_not_mem (Ne.symm other) (ih (map_eq_none_iff.mp missing))

/-- What `in_emitter_add_record` does with an offered record. -/
structure Added (call : Call Body) (earlier : List (Event Body)) (event : Event Body) (name : String) (now : Sink Body)
    (code : Int) (emitter : Emitter Body) : Prop where
  code : code ≠ -1 ↔ call.counted earlier event = true
  contents : emitter.contents.Perm
    ((if call.stored earlier event then [(name, event)] else []) ++ now.emitter.contents)
  reached : Reached call (event :: earlier) { now with emitter }

section Adding

variable {code : Int} {emitter : Emitter Body} (reached : Reached call earlier now) (named : call.newTag event = some name)
  (outside : call.ingested event = false)

include reached named outside

private theorem added_of_refused (refused : call.admitted earlier event = false) (code_ne : code ≠ -1)
    (inputs : call.source ∈ emitter.inputs ↔ call.known (event :: earlier) = true)
    (ring : emitter.ring = now.emitter.ring) (chunks : emitter.chunks = now.emitter.chunks) :
    Added call earlier event name now code emitter := by
  refine ⟨by simp [Call.counted, named, refused, code_ne], ?_, reached.inline, inputs, ?_, ?_⟩
  · simp [Call.stored, outside, refused, Emitter.contents, ring, chunks]
  · exact ring ▸ reached.ring
  · rw [Call.opened, refused]
    exact chunks ▸ reached.chunks

private theorem added_of_admitted (admitted : call.admitted earlier event = true)
    (code_iff : code ≠ -1 ↔ call.fits earlier event = true) (inputs : call.source ∈ emitter.inputs)
    (contents : emitter.contents.Perm ((if call.fits earlier event && !(call.attempt event).writeFails
      then [(name, event)] else []) ++ now.emitter.contents)) (ring : emitter.ring.isSome = now.emitter.ring.isSome)
    (chunks : call.sink.emitter.ring = none → ∀ other, other ∈ emitter.chunks.map Prod.fst ↔
      other ∈ if (call.attempt event).allocFails then call.opened earlier else name :: call.opened earlier) :
    Added call earlier event name now code emitter := by
  have known : call.known (event :: earlier) = true := by
    simp only [Call.admitted, Bool.and_eq_true] at admitted
    exact admitted.1.2
  have opened : call.opened (event :: earlier) =
      if (call.attempt event).allocFails then call.opened earlier else name :: call.opened earlier := by
    cases failed : (call.attempt event).allocFails <;> simp [Call.opened, admitted, named, failed]
  refine ⟨by simp [Call.counted, named, admitted, code_iff], ?_, reached.inline, iff_of_true inputs known,
    ring.trans reached.ring, fun alone => opened ▸ chunks alone⟩
  simpa [Call.stored, outside, admitted] using contents

end Adding

private theorem addRecord_added (reached : Reached call earlier now) (named : call.newTag event = some name)
    (offered : call.offered event = true) :
    Added call earlier event name now (now.emitter.addRecord (call.attempt event) call.source name event).1
      (now.emitter.addRecord (call.attempt event) call.source name event).2 := by
  have outside : call.ingested event = false := by simpa [Call.offered, named] using offered
  have grows := @known_cons Body call earlier event
  rw [offered, Bool.true_and] at grows
  unfold Emitter.addRecord
  split
  next unknown =>
    have still : call.known earlier = false := by simpa using mt reached.inputs.mpr unknown.1
    have later : call.known (event :: earlier) = false := by simp [grows, still, unknown.2]
    refine added_of_refused reached named outside (by simp [Call.admitted, later]) (by simp) ?_ rfl rfl
    rw [later, ← still]
    exact reached.inputs
  next recognised =>
    have later : call.known (event :: earlier) = true := by
      rw [grows]
      by_cases inside : call.source ∈ now.emitter.inputs
      · simp [reached.inputs.mp inside]
      · simp [show (call.attempt event).refAllocFails = false by simpa [inside] using recognised]
    obtain ⟨inputs, joins, same⟩ : ∃ inputs, call.source ∈ inputs ∧ (if call.source ∈ now.emitter.inputs then now.emitter
        else { now.emitter with inputs := now.emitter.inputs ++ [call.source] }) = { now.emitter with inputs } := by
      by_cases inside : call.source ∈ now.emitter.inputs
      · exact ⟨now.emitter.inputs, inside, if_pos inside⟩
      · exact ⟨now.emitter.inputs ++ [call.source], by simp, if_neg inside⟩
    simp only [same]
    split
    next paused =>
      refine added_of_refused reached named outside (by simp [Call.admitted, paused]) (by simp) ?_ rfl rfl
      exact iff_of_true joins later
    next runs =>
      have admitted : call.admitted earlier event = true := by simp [Call.admitted, offered, later, runs]
      cases ring : now.emitter.ring with
      | some messages =>
        obtain ⟨old, threaded⟩ := isSome_iff_exists.mp (reached.ring.symm.trans (by rw [ring]; rfl))
        have fits : call.fits earlier event = !((call.attempt event).allocFails || (call.attempt event).ringFull) := by
          simp [Call.fits, threaded]
        cases refused : (call.attempt event).allocFails || (call.attempt event).ringFull with
        | true =>
          refine added_of_admitted reached named outside admitted (by simp [fits, refused]) joins ?_ (by simp [ring]) ?_
          · simp [fits, refused, Emitter.contents, ring]
          · simp [threaded]
        | false =>
          refine added_of_admitted reached named outside admitted (by simp [fits, refused]) joins ?_ (by simp [ring]) ?_
          · cases (call.attempt event).writeFails <;> simp [fits, refused, Emitter.contents, ring]
          · simp [threaded]
      | none =>
        have alone : call.sink.emitter.ring = none := by simpa [ring] using reached.ring.symm
        have tags := reached.chunks alone
        have fits : call.fits earlier event = true ↔
            (call.attempt event).allocFails = false ∨ name ∈ now.emitter.chunks.map Prod.fst := by
          simp [Call.fits, alone, named, tags]
        simp only
        split
        next chunks appended =>
          obtain ⟨names, inside, contents⟩ := appendTo_some appended
          have room := fits.mpr (.inr inside)
          refine added_of_admitted reached named outside admitted (by simp [room]) joins ?_ (by simp [ring]) ?_
          · cases failed : (call.attempt event).writeFails <;>
              simpa [room, failed, Emitter.contents, ring] using contents
          · intro _ other
            have known := (tags name).mp inside
            simp only [names, tags]
            split
            · rfl
            · exact ⟨mem_cons_of_mem _, fun member => (mem_cons.mp member).elim (fun same => same ▸ known) id⟩
        next missing =>
          have absent := appendTo_none missing
          cases failed : (call.attempt event).allocFails with
          | true =>
            have full : call.fits earlier event = false := by simpa [failed, absent] using fits
            refine added_of_admitted reached named outside admitted (by simp [full]) joins ?_ (by simp [ring]) ?_
            · simp [full, Emitter.contents, ring]
            · simpa [failed] using reached.chunks
          | false =>
            have room := fits.mpr (.inl failed)
            refine added_of_admitted reached named outside admitted (by simp [room]) joins ?_ (by simp [ring]) ?_
            · cases (call.attempt event).writeFails <;> simp [room, Emitter.contents, ring]
            · intro _ other
              simp [failed, ← tags, Or.comm]

/-- What the filter adds to the contents for a record. -/
def Call.accepted (call : Call Body) (place : List (Event Body) × Event Body) : List (String × Event Body) :=
  if call.stored place.1 place.2 then (call.newTag place.2).toList.map (·, place.2) else []

/-- What `process_record` says and does about one event. -/
structure RecordDone (call : Call Body) (earlier : List (Event Body)) (event : Event Body) (now : Sink Body)
    (processed : Processed Body) : Prop where
  retained : (processed.keep || !processed.matched) = retained call.rules event
  emitted : processed.emitted = call.counted earlier event
  contents : processed.sink.contents.Perm (call.accepted (earlier, event) ++ now.contents)
  reached : Reached call (event :: earlier) processed.sink

theorem Call.unoffered_admitted (unoffered : call.offered event = false) : call.admitted earlier event = false := by
  simp [admitted, unoffered]

private theorem emit_done (reached : Reached call earlier now) (named : call.newTag event = some name) :
    ((now.emit (call.attempt event) call.source name event).1 ≠ -1 ↔ call.counted earlier event = true) ∧
      (now.emit (call.attempt event) call.source name event).2.contents.Perm
        (call.accepted (earlier, event) ++ now.contents) ∧
      Reached call (event :: earlier) (now.emit (call.attempt event) call.source name event).2 := by
  have accepted : call.accepted (earlier, event) = if call.stored earlier event then [(name, event)] else [] := by
    simp [Call.accepted, named]
  have moved {more : List (String × Event Body)} {emitter : Emitter Body}
      (contents : emitter.contents.Perm (more ++ now.emitter.contents)) :
      (Sink.contents { now with emitter }).Perm (more ++ now.contents) :=
    (contents.append_left _).trans (perm_append_comm_assoc ..)
  rw [accepted]
  obtain ⟨emitter, inline⟩ := now
  cases inline with
  | none =>
    have outside : call.sink.inline.isSome = false := reached.inline.symm
    have added := addRecord_added reached named (by simp [Call.offered, Call.ingested, named, outside])
    exact ⟨added.code, moved added.contents, added.reached⟩
  | some records =>
    have inside : call.sink.inline.isSome = true := reached.inline.symm
    unfold Sink.emit
    simp only
    split
    next fails =>
      have added := addRecord_added reached named (by simp [Call.offered, Call.ingested, named, fails])
      exact ⟨added.code, moved added.contents, added.reached⟩
    next works =>
      have ingested : call.ingested event = true := by simp [Call.ingested, named, inside, works]
      have unoffered : call.offered event = false := by simp [Call.offered, ingested]
      have next := reached.skip unoffered
      refine ⟨by simp [Call.counted, named, Call.unoffered_admitted unoffered], ?_, ⟨inside.symm, next.inputs, next.ring,
        next.chunks⟩⟩
      simp only [Call.stored, ingested, Bool.true_or, if_true, Sink.contents, getD_some, append_assoc]
      exact perm_middle

private theorem processRecord_done (reached : Reached call earlier now) (keep : Bool) :
    RecordDone call earlier event now
      (processRecord call.rules call.source call.tag (call.attempt event) event keep now) := by
  have first := firstRule_fst event.body call.rules keep
  have skipped (unnamed : call.newTag event = none) : call.counted earlier event = false ∧
      call.accepted (earlier, event) = [] ∧ Reached call (event :: earlier) now := by
    have unoffered : call.offered event = false := by simp [Call.offered, unnamed]
    exact ⟨by simp [Call.counted, unnamed], by simp [Call.accepted, unnamed], reached.skip unoffered⟩
  unfold processRecord
  cases found : matchingRule call.rules event.body with
  | none =>
    obtain ⟨uncounted, nothing, next⟩ := skipped (by simp [Call.newTag, found])
    rw [found] at first
    generalize firstRule event.body call.rules keep = chosen at first ⊢
    obtain ⟨rule, kept⟩ := chosen
    obtain rfl : rule = none := first
    exact ⟨by simp [retained, found], uncounted.symm, by simp [nothing], next⟩
  | some rule =>
    have decides := @firstRule_keep _ _ _ keep _ found
    rw [found] at first
    generalize firstRule event.body call.rules keep = chosen at first decides ⊢
    obtain ⟨same, kept⟩ := chosen
    obtain rfl : same = some rule := first
    obtain rfl : kept = rule.keepRecord := decides
    cases failed : (call.attempt event).translateFails with
    | true =>
      obtain ⟨uncounted, nothing, next⟩ := skipped (by simp [Call.newTag, failed])
      exact ⟨by simp [retained, found], uncounted.symm, by simp [nothing], next⟩
    | false =>
      have named : call.newTag event = some (rule.translate call.tag event.body) := by simp [Call.newTag, failed, found]
      obtain ⟨code, contents, next⟩ := emit_done reached named
      refine ⟨by simp [retained, found], ?_, contents, next⟩
      exact Bool.eq_iff_iff.mpr (decide_eq_true_iff.trans code)

structure LoopDone (call : Call Body) (earlier events : List (Event Body)) (before after : Loop Body) : Prop where
  emitted : after.emittedNum =
    before.emittedNum + (placed earlier events).countP fun place => call.counted place.1 place.2
  encoder : after.encoder = before.encoder ++ events.filter (retained call.rules)
  contents : after.sink.contents.Perm ((placed earlier events).flatMap call.accepted ++ before.sink.contents)

private theorem loop_done {events : List (Event Body)} {loop : Loop Body} (reached : Reached call earlier loop.sink) :
    LoopDone call earlier events loop (events.foldl (Loop.next call.rules call.source call.tag call.attempts) loop) := by
  induction events generalizing earlier loop with
  | nil => constructor <;> simp [placed]
  | cons event events ih =>
    have one := @processRecord_done _ call earlier event loop.sink reached loop.keep
    obtain ⟨emitted, encoder, contents⟩ :=
      @ih (event :: earlier) (loop.next call.rules call.source call.tag call.attempts event) one.reached
    constructor
    · rw [foldl_cons, emitted, placed, countP_cons]
      simp only [Loop.next]
      rw [show call.attempts event.base = call.attempt event from rfl, one.emitted]
      cases call.counted earlier event with
      | true => simp; omega
      | false => simp
    · rw [foldl_cons, encoder]
      simp only [Loop.next]
      rw [show call.attempts event.base = call.attempt event from rfl, one.retained]
      cases keeps : retained call.rules event with
      | true | false => simp [keeps]
    · refine contents.trans ?_
      rw [placed, flatMap_cons, append_assoc]
      exact (one.contents.append_left _).trans (perm_append_comm_assoc ..)

theorem Call.stored_matched (kept : call.stored earlier event = true) :
    ∃ rule, matchingRule call.rules event.body = some rule ∧
      call.newTag event = some (rule.translate call.tag event.body) := by
  have named : (call.newTag event).isSome = true := by
    simp only [stored, admitted, offered, ingested, Bool.or_eq_true, Bool.and_eq_true] at kept
    obtain ⟨⟨named, _⟩, _⟩ | ⟨⟨⟨⟨⟨named, _⟩, _⟩, _⟩, _⟩, _⟩ := kept <;> exact named
  unfold newTag at named ⊢
  split at named
  · cases named
  next composed =>
    obtain ⟨rule, found⟩ := isSome_iff_exists.mp (isSome_map ▸ named)
    exact ⟨rule, found, by rw [if_neg composed, found]; rfl⟩

/-! ### No loss -/

section

variable [DecidableEq Body]

def Accepted (rules : List (Rule Body)) (tag : String) (before after : Sink Body) (event : Event Body) : Prop :=
  ∃ rule, matchingRule rules event.body = some rule ∧
    after.contents.count (rule.translate tag event.body, event) =
      before.contents.count (rule.translate tag event.body, event) + 1 ∧
    after.contents.countP (fun record => record.2 = event) =
      before.contents.countP (fun record => record.2 = event) + 1

structure LosesNothing (rules : List (Rule Body)) (tag : String) (chunk : Chunk Body) (before : Sink Body)
    (continues : List (Event Body)) (after : Sink Body) : Prop where
  somewhere : ∀ event ∈ chunk.events, event ∈ continues ∨ Accepted rules tag before after event
  once : ∀ event ∈ chunk.events, Accepted rules tag before after event ∨
    after.contents.countP (fun record => record.2 = event) =
      before.contents.countP (fun record => record.2 = event)
  removed : ∀ event ∈ chunk.events, event ∉ continues →
    ∃ rule, matchingRule rules event.body = some rule ∧ rule.keepRecord = false ∧
      Accepted rules tag before after event

variable {place : List (Event Body) × Event Body}

private theorem filter_accepted {places : List (List (Event Body) × Event Body)}
    (distinct : (places.map Prod.snd).Nodup)
    (member : place ∈ places) :
    (places.flatMap call.accepted).filter (fun record => record.2 = place.2) = call.accepted place := by
  have others : ∀ other : List (Event Body) × Event Body, (call.accepted other).filter
      (fun record => record.2 = place.2) = if other.2 = place.2 then call.accepted other else [] := by
    intro other
    unfold Call.accepted
    split
    · by_cases same : other.2 = place.2 <;> simp [same, List.filter_map, Function.comp_def]
    · simp
  induction places with
  | nil => cases member
  | cons first places ih =>
    obtain ⟨fresh, distinct⟩ := nodup_cons.mp distinct
    rw [flatMap_cons, filter_append, others]
    rcases mem_cons.mp member with rfl | member
    · have rest : (places.flatMap call.accepted).filter (fun record => record.2 = place.2) = [] := by
        rw [filter_flatMap]
        apply flatMap_eq_nil_iff.mpr
        intro other later
        rw [others, if_neg]
        intro same
        exact fresh (same ▸ mem_map_of_mem later)
      simp [rest]
    · have different : first.2 ≠ place.2 := by
        intro same
        exact fresh (same ▸ mem_map_of_mem member)
      simp [different, ih distinct member]

private theorem accepted_iff {before after : Sink Body} {places : List (List (Event Body) × Event Body)}
    (distinct : (places.map Prod.snd).Nodup)
    (contents : after.contents.Perm (places.flatMap call.accepted ++ before.contents)) (member : place ∈ places) :
    (Accepted call.rules call.tag before after place.2 ↔ call.stored place.1 place.2 = true) ∧
      (call.stored place.1 place.2 = false → after.contents.countP (fun record => record.2 = place.2) =
        before.contents.countP (fun record => record.2 = place.2)) := by
  have own : (places.flatMap call.accepted).filter (fun record => record.2 = place.2) = call.accepted place :=
    filter_accepted distinct member
  have total : after.contents.countP (fun record => record.2 = place.2) =
      (call.accepted place).length + before.contents.countP (fun record => record.2 = place.2) := by
    rw [contents.countP_eq, countP_append, countP_eq_length_filter, own]
  have single : ∀ record : String × Event Body, record.2 = place.2 →
      after.contents.count record = (call.accepted place).count record + before.contents.count record := by
    intro record same
    rw [contents.count_eq, count_append, ← own, count_filter (by simpa using same)]
  cases kept : call.stored place.1 place.2 with
  | false =>
    have nothing : call.accepted place = [] := by simp [Call.accepted, kept]
    rw [nothing, length_nil, Nat.zero_add] at total
    refine ⟨iff_of_false ?_ (by simp), fun _ => total⟩
    rintro ⟨rule, _, _, more⟩
    omega
  | true =>
    obtain ⟨rule, found, named⟩ := call.stored_matched kept
    have whole : call.accepted place = [(rule.translate call.tag place.2.body, place.2)] := by
      simp [Call.accepted, kept, named]
    refine ⟨iff_of_true ⟨rule, found, ?_, ?_⟩ rfl, by simp⟩
    · rw [single _ rfl, whole, count_singleton_self, Nat.add_comm]
    · rw [total, whole, length_singleton, Nat.add_comm]

end

def retagAll : Rule Nat :=
  { keepRecord := false, regexMatch := fun _ => true, translate := fun _ _ => "new" }

def emptySink : Sink Nat :=
  { emitter := { inputs := [0], ring := none, chunks := [] }, inline := none }

def oneRecord : Chunk Nat :=
  { events := [{ base := 0, body := 7 }], distinct := by decide }

def pausedEmitter (_ : Nat) : Attempt :=
  { translateFails := false, inlineFails := false, refAllocFails := false, paused := true, allocFails := false,
    ringFull := false, writeFails := false }

def pausedRun : List (Event Nat) × Sink Nat :=
  cbRewriteTagFilter [retagAll] 0 "old" pausedEmitter false oneRecord emptySink

end FluentBit.RewriteTag
