import FluentBit.Foundation.Runs
import FluentBit.Multiline.Accounts

/-! No line is lost or sent twice, and the lines of a stream are sent in order, when one
parser at most takes each of them and the lines that wait are in the buffer it goes
to. The engine has one group of parsers, and the flush of pending data empties it. -/

set_option autoImplicit false

namespace FluentBit.Multiline

open List Bool Option
open Ml

def lruFor (ml : Ml) (stream : StreamId) : Option Ins :=
  (ml.lru 0).filter fun last => decide (ml.lastStreamId last = stream)

def taker (config : Config) (parsers : List Ins) (ml : Ml) (stream : StreamId) (input : Input) (now : Nat) :
    Option Ins :=
  match (lruFor ml stream).filter (accepts config ml stream input now) with
  | some last => some last
  | none => parsers.find? (accepts config ml stream input now)

def landing (config : Config) (ml : Ml) (stream : StreamId) (input : Input) (now : Nat) (ins : Ins) : Option Nat :=
  (lineOf config ins input now).bind fun line =>
    (streamGroupGet (config.parser ins) (ml.groupsOf ins stream) line.group).map Prod.fst

/-- A buffer whose lines an append does not pass: it is the one the line goes to, or it is
flushed before. -/
def Follows (config : Config) (parsers : List Ins) (ml : Ml) (stream : StreamId) (input : Input) (now : Nat)
    (ins : Ins) (place : Nat) : Prop :=
  match taker config parsers ml stream input now with
  | some taker => (taker = ins ∧ landing config ml stream input now ins = some place) ∨
      (taker ≠ ins ∧ lruFor ml stream = some ins)
  | none => (lruFor ml stream).or parsers.head? = some ins

def Leaves (config : Config) (parsers : List Ins) (ml : Ml) (stream : StreamId) (input : Input) (now : Nat) : Prop :=
  match taker config parsers ml stream input now with
  | some ins => ∀ line place groups group, lineOf config ins input now = some line →
      streamGroupGet (config.parser ins) (ml.groupsOf ins stream) line.group = some (place, groups) →
      groups[place]? = some group → line.Seen (config.parser ins) group
  | none => ∀ tm, input ≠ .text tm []

structure Whole (config : Config) (parsers : List Ins) (ml : Ml) (stream : StreamId) (input : Input) (now : Nat) :
    Prop where
  created : stream ∈ ml.created
  room : ∀ ins ∈ parsers, Room config ml stream input now ins
  once : ∀ last, lruFor ml stream = some last → accepts config ml stream input now last = true →
    ∀ ins ∈ parsers, ins ≠ last → accepts config ml stream input now ins = false
  follows : ∀ ins place, piecesAt ml stream ins place ≠ [] → Follows config parsers ml stream input now ins place
  leaves : Leaves config parsers ml stream input now

section

variable {config : Config} {parsers : List Ins} {inputs : StreamId → List Input} {ml : Ml} {ins other : Ins}
  {stream target : StreamId} {extra : List Nat} {input : Input} {now : Nat}

variable {after start middle : Ml} {text : Bytes} {tm : Nat} {last : Ins} {pass : Pass} {line : Line}
  {converted : Converted}

theorem tryParser_congr (frame : Frame ml after) (alive : after.crashed = ml.crashed)
    (same : after.groupsOf ins stream = ml.groupsOf ins stream) :
    accepts config after stream input now ins = accepts config ml stream input now ins := by
  unfold accepts tryParser
  rw [alive, same, frame.created, frame.appended]
  split
  · rfl
  · split
    · rfl
    · split
      · split <;> simp_all
      · rfl

structure Idle (config : Config) (parsers : List Ins) (inputs : StreamId → List Input) (stream : StreamId)
    (before after : Ml) : Prop where
  frame : Frame before after
  steady : Steady config parsers inputs after
  accounts : ∀ target extra, Account before target extra → Account after target extra
  pieces : ∀ other spot, piecesAt after stream other spot = piecesAt before stream other spot

theorem Idle.refl (steady : Steady config parsers inputs ml) : Idle config parsers inputs stream ml ml :=
  ⟨Frame.refl ml, steady, fun _ _ => id, fun _ _ => rfl⟩

theorem Idle.refused {start : Ml} (idle : Idle config parsers inputs stream start ml) (among : ins ∈ parsers)
    (created : stream ∈ ml.created) {groups : List StreamGroup} (widened : Widened (ml.groupsOf ins stream) groups) :
    Idle config parsers inputs stream start (ml.deliver ins stream groups []) := by
  refine ⟨idle.frame.trans (frame_deliver _ _), idle.steady.refused among created widened, ?_, ?_⟩
  · intro target extra account
    exact (idle.accounts target extra account).refused widened
  · intro other spot
    rw [← idle.pieces other spot]
    by_cases same : other = ins
    · subst same
      rw [piecesAt_deliver_self]
      exact pieces_widened widened spot
    · exact piecesAt_deliver_of_ne (.inl same) spot

theorem parserLoop_cases (lru : Option Ins) (rest : List Ins) (distinct : rest.Nodup)
    (subset : ∀ ins ∈ rest, ins ∈ parsers) (idle : Idle config parsers inputs stream start ml)
    (created : stream ∈ start.created) (untouched : ∀ ins ∈ rest, ml.groupsOf ins stream = start.groupsOf ins stream)
    (room : ∀ ins ∈ rest, start.skips stream input lru ins = false → Room config start stream input now ins)
    (alive : start.crashed = false) : ∃ middle, Idle config parsers inputs stream start middle ∧
      ((ml.parserLoop config stream input now lru rest = (none, middle) ∧
          ∀ ins ∈ rest, start.skips stream input lru ins = false → accepts config start stream input now ins = false) ∨
        ∃ ins ∈ rest, start.skips stream input lru ins = false ∧
          (rest.find? fun ins => !start.skips stream input lru ins && accepts config start stream input now ins) =
            some ins ∧ accepts config start stream input now ins = true ∧
          middle.groupsOf ins stream = start.groupsOf ins stream ∧ ml.parserLoop config stream input now lru rest =
            (some ins, (middle.tryParser config ins stream input now).2)) := by
  induction rest generalizing ml with
  | nil => exact ⟨ml, idle, .inl ⟨rfl, by simp⟩⟩
  | cons head rest ih =>
    obtain ⟨fresh, distinct⟩ := nodup_cons.mp distinct
    have skipping : ml.skips stream input lru head = start.skips stream input lru head := by
      simp [skips, idle.frame.lastStreamId]
    have verdict : accepts config ml stream input now head = accepts config start stream input now head :=
      tryParser_congr idle.frame (idle.steady.alive.trans alive.symm) (untouched head (by simp))
    unfold parserLoop
    rw [skipping]
    cases skipped : start.skips stream input lru head with
    | true =>
      obtain ⟨middle, idle, result⟩ := ih distinct (fun ins member => subset ins (mem_cons_of_mem _ member))
        idle (fun ins member => untouched ins (mem_cons_of_mem _ member))
        (fun ins member => room ins (mem_cons_of_mem _ member))
      refine ⟨middle, idle, ?_⟩
      rcases result with ⟨none, refused⟩ | ⟨ins, member, unskipped, found, taken⟩
      · refine .inl ⟨by simpa using none, ?_⟩
        intro ins member unskipped
        rcases mem_cons.mp member with rfl | later
        · simp [skipped] at unskipped
        · exact refused ins later unskipped
      · refine .inr ⟨ins, mem_cons_of_mem _ member, unskipped, ?_, by simpa using taken⟩
        simp [skipped, found]
    | false =>
      have here := untouched head (by simp)
      have known : stream ∈ ml.created := idle.frame.created ▸ created
      have space : Room config ml stream input now head := by
        intro line made
        rw [here]
        exact room head (by simp) skipped line made
      rcases tryParser_cases idle.steady.alive known (idle.steady.opened head stream known) space with
        ⟨refused, groups, widened, state⟩ | ⟨taken, _⟩
      · have next := idle.refused (subset head (by simp)) known widened
        obtain ⟨middle, idle, result⟩ := ih distinct
          (fun ins member => subset ins (mem_cons_of_mem _ member)) next (by
            intro ins member
            have apart : ins ≠ head := by
              rintro rfl
              exact fresh member
            rw [groupsOf_deliver_of_ne (.inl apart)]
            exact untouched ins (mem_cons_of_mem _ member))
          (fun ins member => room ins (mem_cons_of_mem _ member))
        have unwilling : accepts config start stream input now head = false := by
          rw [← verdict]
          exact refused
        have loop : (if false = true then ml.parserLoop config stream input now lru rest
            else if (ml.tryParser config head stream input now).1 = true then
              (some head, (ml.tryParser config head stream input now).2)
            else (ml.tryParser config head stream input now).2.parserLoop config stream input now lru rest) =
            (ml.deliver head stream groups []).parserLoop config stream input now lru rest := by
          simp [refused, state]
        refine ⟨middle, idle, ?_⟩
        rcases result with ⟨none, others⟩ | ⟨ins, member, unskipped, found, taken⟩
        · refine .inl ⟨loop.trans none, ?_⟩
          intro ins member unskipped
          rcases mem_cons.mp member with rfl | later
          · exact unwilling
          · exact others ins later unskipped
        · refine .inr ⟨ins, mem_cons_of_mem _ member, unskipped, ?_, taken.1, taken.2.1, loop.trans taken.2.2⟩
          simp [unwilling, found]
      · have willing : accepts config start stream input now head = true := by
          rw [← verdict]
          exact taken
        refine ⟨ml, idle, .inr ⟨head, by simp, skipped, by simp [skipped, willing], willing, here, ?_⟩⟩
        simp [taken]

/-! ### An append -/

structure Entered (config : Config) (parsers : List Ins) (inputs : StreamId → List Input) (stream : StreamId)
    (before after : Ml) : Prop where
  frame : Frame before after
  steady : Steady config parsers inputs after
  account : Account after stream [(before.appended stream).length]
  others : ∀ target, target ≠ stream → Account before target [] → Account after target []

theorem Idle.entered (idle : Idle config parsers inputs stream start middle)
    (accounts : ∀ target, Account start target []) (among : ins ∈ parsers) (created : stream ∈ start.created)
    (taken : Taken config middle ins stream input now after) (seen : taken.line.Seen (config.parser ins) taken.group)
    (current : (inputs stream)[(start.appended stream).length]? = some input)
    (joins : ∀ other spot, piecesAt start stream other spot ≠ [] → other = ins ∧ spot = taken.place) :
    Entered config parsers inputs stream start after := by
  have known : stream ∈ middle.created := idle.frame.created ▸ created
  have widened := (streamGroupGet_cases taken.got).1
  have sound : Sound (config.parser ins) taken.group := by
    have steady := idle.steady.refused among known widened
    have member : taken.group ∈ (middle.deliver ins stream taken.groups []).groupsOf ins stream := by
      rw [groupsOf_deliver_self]
      exact mem_of_getElem? taken.here
    exact steady.sound ins stream taken.group member
  have takes := sound.packageContent (lineOf_content taken.made).1 config.hash now _ seen taken.packaged
  have same := idle.frame.appended
  refine ⟨?_, idle.steady.taken among known taken takes widened (by rw [same]; exact current), ?_, ?_⟩
  · rw [taken.state]
    exact idle.frame.trans (frame_deliver _ _)
  · rw [← same]
    apply (idle.accounts stream [] (accounts stream)).taken taken takes widened
    intro other spot some
    rw [idle.pieces] at some
    exact joins other spot some
  · intro target apart account
    rw [taken.state]
    exact (idle.accounts target [] account).deliver_of_ne apart

theorem Account.direct (account : Account ml stream []) (empty : ∀ other spot, piecesAt ml stream other spot = [])
    {groups : List StreamGroup} (emptied : ∀ group ∈ groups, group.pieces = []) {parcels : List Parcel}
    (pieces : parcels.flatMap Parcel.pieces = [{ index := (ml.appended stream).length, text }]) :
    Account (ml.deliver ins stream groups parcels) stream [(ml.appended stream).length] := by
  have still : ∀ other spot, piecesAt (ml.deliver ins stream groups parcels) stream other spot = [] := by
    intro other spot
    by_cases same : other = ins
    · subst same
      rw [piecesAt_deliver_self]
      cases found : groups[spot]? with
      | none => rfl
      | some group => exact emptied group (mem_of_getElem? found)
    · rw [piecesAt_deliver_of_ne (.inl same)]
      exact empty other spot
  obtain ⟨home, place, _, total⟩ := account
  rw [empty, append_nil, append_nil] at total
  refine ⟨ins, 0, fun other spot _ => still other spot, ?_⟩
  rw [still, sent_deliver_self, pieces, append_nil, map_append, total]
  rfl

section

variable (frame : Frame start ml) (steady : Steady config parsers inputs ml)
  (accounts : ∀ target, Account ml target []) (among : ins ∈ parsers) (created : stream ∈ ml.created)
  (empty : ∀ other spot, piecesAt ml stream other spot = [])
include frame steady accounts among created empty

theorem flushText_entered {buf : Bytes} (filled : buf ≠ [])
    (current : (inputs stream)[(ml.appended stream).length]? = some (.text tm buf)) :
    Entered config parsers inputs stream start
      (ml.flushText config ins stream now (ml.appended stream).length buf) := by
  have opened := steady.opened ins stream created
  unfold flushText
  cases groups : ml.groupsOf ins stream with
  | nil => exact absurd groups opened
  | cons group rest =>
    have inside : ∀ other ∈ group :: rest, other ∈ ml.groupsOf ins stream := by
      intro other member
      rw [groups]
      exact member
    have blank : ∀ other ∈ group :: rest, other.pieces = [] := by
      intro other member
      obtain ⟨spot, same⟩ := exists_piecesAt (inside other member)
      rw [← same]
      exact empty ins spot
    have empties := ((steady.sound ins stream group (inside group (by simp))).add (ml.appended stream).length
      { map := none, content := buf, pattern := none, group := none, time := 0, metadata := none }
      (.inl filled)).flushStreamGroup config.hash now
    simp only
    generalize flushStreamGroup config.hash (config.parser ins) now _ = result at empties ⊢
    have pieces : result.2.flatMap Parcel.pieces = [{ index := (ml.appended stream).length, text := buf }] := by
      rw [empties.sent]
      simp [StreamGroup.add, blank group (by simp)]
    refine ⟨frame.trans (frame_deliver _ _), ?_, ?_, ?_⟩
    · apply steady.deliver among created
      · simp
      · intro other member
        rcases mem_cons.mp member with rfl | later
        · exact empties.sound
        · exact steady.sound ins stream other (inside other (mem_cons_of_mem _ later))
      · intro other member piece held
        rcases mem_cons.mp member with rfl | later
        · simp [empties.pieces] at held
        · simp [blank other (mem_cons_of_mem _ later)] at held
      · intro parcel member
        refine .inl ⟨empties.holds parcel member, ?_⟩
        intro piece held
        have only : piece ∈ result.2.flatMap Parcel.pieces := mem_flatMap.mpr ⟨parcel, member, held⟩
        rw [pieces, mem_singleton] at only
        subst only
        exact ⟨.text tm buf, current, .inr ⟨tm, rfl⟩⟩
    · rw [← frame.appended]
      apply (accounts stream).direct empty _ pieces
      intro other member
      rcases mem_cons.mp member with rfl | later
      · exact empties.pieces
      · exact blank other (mem_cons_of_mem _ later)
    · intro target apart _
      exact (accounts target).deliver_of_ne apart

theorem flushObject_entered {metadata body : Map}
    (current : (inputs stream)[(ml.appended stream).length]? = some (.object tm metadata body)) :
    Entered config parsers inputs stream start
      (ml.flushObject ins stream (ml.appended stream).length tm metadata body) := by
  have opened := steady.opened ins stream created
  unfold flushObject
  cases groups : ml.groupsOf ins stream with
  | nil => exact absurd groups opened
  | cons group rest =>
    have inside : ∀ other ∈ rest, other ∈ ml.groupsOf ins stream := by
      intro other member
      rw [groups]
      exact mem_cons_of_mem _ member
    have blank : ∀ other ∈ rest, other.pieces = [] := by
      intro other member
      obtain ⟨spot, same⟩ := exists_piecesAt (inside other member)
      rw [← same]
      exact empty ins spot
    refine ⟨frame.trans (frame_deliver _ _), ?_, ?_, ?_⟩
    · apply steady.deliver among created
      · simp
      · intro other member
        rcases mem_cons.mp member with rfl | later
        · exact ⟨.empty, by simp, by simp⟩
        · exact steady.sound ins stream other (inside other later)
      · intro other member piece held
        rcases mem_cons.mp member with rfl | later
        · simp at held
        · simp [blank other later] at held
      · intro parcel member
        obtain rfl := mem_singleton.mp member
        exact .inr ⟨_, tm, metadata, rfl, current⟩
    · rw [← frame.appended]
      apply (accounts stream).direct empty
      · intro other member
        rcases mem_cons.mp member with rfl | later
        · rfl
        · exact blank other later
      · rfl
    · intro target apart _
      exact (accounts target).deliver_of_ne apart

end

theorem passOn_entered (steady : Steady config parsers inputs ml) (accounts : ∀ target, Account ml target [])
    (created : stream ∈ ml.created) {lru : Option Ins} (last : lru.or parsers.head? = some ins)
    (among : ins ∈ parsers) (waiting : ∀ other spot, piecesAt ml stream other spot ≠ [] → other = ins)
    (filled : ∀ tm, input ≠ .text tm []) (current : (inputs stream)[(ml.appended stream).length]? = some input) :
    Entered config parsers inputs stream ml (ml.passOn config stream input now lru parsers) := by
  obtain ⟨first, chosen, firstSteady, firstAccounts, firstFrame, firstGroups⟩ : ∃ first : Ml,
      ml.flushLast config stream now lru = first ∧ Steady config parsers inputs first ∧
      (∀ target, Account first target []) ∧ Frame ml first ∧
      ∀ other, other ≠ ins → first.groupsOf other stream = ml.groupsOf other stream := by
    cases lru with
    | none => exact ⟨ml, rfl, steady, accounts, Frame.refl ml, fun _ _ => rfl⟩
    | some last' =>
      obtain rfl : last' = ins := by simpa using last
      obtain ⟨kept, accounted⟩ := @flushParserInstance_keeps config parsers inputs ml last' stream steady among now
      exact ⟨_, rfl, kept, fun target => accounted target [] (accounts target), frame_flushParserInstance,
        fun other apart => groupsOf_flushParserInstance_of_ne apart stream⟩
  have known : stream ∈ first.created := firstFrame.created ▸ created
  obtain ⟨kept, accounted⟩ := @flushParserInstance_keeps config parsers inputs first ins stream firstSteady among now
  have frame : Frame first (first.flushParserInstance config ins stream now) := frame_flushParserInstance
  have empty : ∀ other spot, piecesAt (first.flushParserInstance config ins stream now) stream other spot = [] := by
    intro other spot
    by_cases same : other = ins
    · subst same
      exact piecesAt_flushParserInstance firstSteady among known (.inr rfl) now spot
    · have unchanged : piecesAt (first.flushParserInstance config ins stream now) stream other spot =
          piecesAt ml stream other spot := by
        simp [piecesAt, groupsOf_flushParserInstance_of_ne same, firstGroups other same]
      rw [unchanged]
      by_contra some
      exact same (waiting other spot some)
  unfold passOn
  simp only [chosen, last]
  have size : ml.appended = (first.flushParserInstance config ins stream now).appended :=
    (frame.appended.trans firstFrame.appended).symm
  have still : stream ∈ (first.flushParserInstance config ins stream now).created := frame.created ▸ known
  rw [if_pos still]
  rw [size] at current ⊢
  cases input with
  | text tm buf =>
    apply flushText_entered (firstFrame.trans frame) kept (fun target => accounted target [] (firstAccounts target))
      among still empty _ current
    rintro rfl
    exact filled tm rfl
  | object tm metadata body =>
    exact flushObject_entered (firstFrame.trans frame) kept
      (fun target => accounted target [] (firstAccounts target)) among still empty current

theorem Entered.of_prior {prior : Ml} (entered : Entered config parsers inputs stream ml after)
    (frame : Frame prior ml) (accounts : ∀ target, Account prior target [] → Account ml target []) :
    Entered config parsers inputs stream prior after := by
  refine ⟨frame.trans entered.frame, entered.steady, ?_, ?_⟩
  · rw [← frame.appended]
    exact entered.account
  · intro target apart account
    exact entered.others target apart (accounts target account)

theorem Entered.idle {last : Ml} (entered : Entered config parsers inputs stream ml after)
    (idle : Idle config parsers inputs stream after last) : Entered config parsers inputs stream ml last := by
  refine ⟨entered.frame.trans idle.frame, idle.steady, idle.accounts stream _ entered.account, ?_⟩
  intro target apart account
  exact idle.accounts target [] (entered.others target apart account)

theorem lruLoop_of_none (none : lruFor ml stream = none) (used : ∀ last, ml.lru 0 = some last →
    ml.lastStreamId last ≠ 0) :
    lruLoop config stream input now 0 [parsers] { processed := false, group := 0, lru := .none, ml } =
      { processed := false, group := 0, lru := .none, ml } := by
  unfold lruFor at none
  cases found : ml.lru 0 with
  | none => simp [lruLoop, found]
  | some last =>
    have other : ml.lastStreamId last ≠ stream := by simpa [found] using none
    have positive : 0 < ml.lastStreamId last := Nat.pos_of_ne_zero (used last found)
    simp [lruLoop, found, other, positive]

theorem lruLoop_of_some (some : lruFor ml stream = some last) :
    lruLoop config stream input now 0 [parsers] { processed := false, group := 0, lru := none, ml } =
      if accepts config ml stream input now last then
        { processed := true, group := 0, lru := .some last, ml := (ml.tryParser config last stream input now).2 }
      else
        { processed := false, group := 0, lru := .some last
          ml := (ml.tryParser config last stream input now).2.flushParserInstance config last stream now } := by
  obtain ⟨found, same⟩ := filter_eq_some_iff.mp some
  have mine : ml.lastStreamId last = stream := by simpa using same
  simp only [lruLoop, found, mine, if_true, accepts]
  rfl

structure Finished (config : Config) (parsers : List Ins) (inputs : StreamId → List Input) (stream : StreamId)
    (before after : Ml) : Prop where
  entered : ∃ middle, Entered config parsers inputs stream before middle ∧
    after = { middle with lru := after.lru, lastStreamId := after.lastStreamId }
  used : ∀ last, after.lru 0 = some last → last ∈ parsers ∧ after.lastStreamId last ≠ 0

def finish (config : Config) (parsers : List Ins) (stream : StreamId) (input : Input) (now : Nat) (pass : Pass) : Ml :=
  let tried := parserLoop config stream input now pass.lru parsers pass.ml
  match tried.1 with
  | some ins =>
    { tried.2 with
      lru := Function.update tried.2.lru pass.group (some ins)
      lastStreamId := Function.update tried.2.lastStreamId ins stream }
  | none => if pass.processed then tried.2 else tried.2.passOn config stream input now pass.lru parsers

theorem append_eq (one : config.groups = [parsers])
    (loop : lruLoop config stream input now 0 [parsers] { processed := false, group := 0, lru := none, ml } = pass)
    (group : pass.group = 0) :
    ml.append config stream input now = { finish config parsers stream input now pass with
        appended := Function.update (finish config parsers stream input now pass).appended stream
          ((finish config parsers stream input now pass).appended stream ++ [input]) } := by
  unfold Ml.append finish
  simp only [one, loop, group]
  rfl

theorem finish_of_taken (loop : pass.ml.parserLoop config stream input now pass.lru parsers =
      (some ins, (middle.tryParser config ins stream input now).2)) :
    finish config parsers stream input now pass = { (middle.tryParser config ins stream input now).2 with
        lru := Function.update (middle.tryParser config ins stream input now).2.lru pass.group (some ins)
        lastStreamId :=
          Function.update (middle.tryParser config ins stream input now).2.lastStreamId ins stream } := by
  unfold finish
  simp [loop]

theorem finish_of_none (loop : pass.ml.parserLoop config stream input now pass.lru parsers = (none, middle)) :
    finish config parsers stream input now pass =
      if pass.processed then middle else middle.passOn config stream input now pass.lru parsers := by
  unfold finish
  simp [loop]

theorem Idle.finished {start middle : Ml} {pass : Pass} (idle : Idle config parsers inputs stream start middle)
    (accounts : ∀ target, Account start target []) (among : ins ∈ parsers) (created : stream ∈ start.created)
    (positive : stream ≠ 0) (willing : accepts config middle stream input now ins = true)
    (room : Room config middle stream input now ins)
    (seen : ∀ line place groups group, lineOf config ins input now = some line →
      streamGroupGet (config.parser ins) (middle.groupsOf ins stream) line.group = some (place, groups) →
      groups[place]? = some group → line.Seen (config.parser ins) group)
    (current : (inputs stream)[(start.appended stream).length]? = some input)
    (joins : ∀ other spot, piecesAt start stream other spot ≠ [] →
      other = ins ∧ landing config middle stream input now ins = some spot)
    (loop : pass.ml.parserLoop config stream input now pass.lru parsers =
      (some ins, (middle.tryParser config ins stream input now).2)) (group : pass.group = 0) :
    Finished config parsers inputs stream start (finish config parsers stream input now pass) := by
  have known : stream ∈ middle.created := idle.frame.created ▸ created
  rcases tryParser_cases idle.steady.alive known (idle.steady.opened ins stream known) room with
    ⟨refused, _⟩ | ⟨_, ⟨taken⟩⟩
  · exact absurd refused (by rw [← not_eq_true] ; simpa [accepts] using willing)
  · have entered := idle.entered accounts among created taken
      (seen taken.line taken.place taken.groups taken.group taken.made taken.got taken.here) current (by
        intro other spot waiting
        obtain ⟨rfl, place⟩ := joins other spot waiting
        refine ⟨rfl, ?_⟩
        have here : landing config middle stream input now other = some taken.place := by
          simp [landing, taken.made, taken.got]
        exact Option.some.inj (place.symm.trans here))
    rw [finish_of_taken loop]
    refine ⟨⟨_, entered, rfl⟩, ?_⟩
    intro last found
    simp only [group, Function.update_self, Option.some.injEq] at found
    subst found
    exact ⟨among, by simpa using positive⟩

theorem Follows.of_taker {place : Nat} (follows : Follows config parsers ml stream input now other place)
    (taken : taker config parsers ml stream input now = some ins) (unused : lruFor ml stream ≠ some other) :
    other = ins ∧ landing config ml stream input now ins = some place := by
  unfold Follows at follows
  simp only [taken] at follows
  rcases follows with ⟨rfl, lands⟩ | ⟨_, last⟩
  · exact ⟨rfl, lands⟩
  · exact absurd last unused

theorem landing_congr (same : after.groupsOf ins stream = ml.groupsOf ins stream) :
    landing config after stream input now ins = landing config ml stream input now ins := by
  simp [landing, same]

theorem skips_last {start : Ml} (frame : Frame ml start) {last : Ins} (mine : lruFor ml stream = some last) (ins : Ins) :
    start.skips stream input (some last) ins = decide (last = ins) := by
  obtain ⟨_, isMine⟩ := filter_eq_some_iff.mp mine
  by_cases same : last = ins
  · subst same
    have own : ml.lastStreamId last = stream := by simpa using isMine
    simp [skips, frame.lastStreamId, own]
  · simp [skips, same]

section

variable (one : parsers ≠ []) (distinct : parsers.Nodup) (steady : Steady config parsers inputs ml)
  (accounts : ∀ target, Account ml target [])
  (used : ∀ last, ml.lru 0 = some last → last ∈ parsers ∧ ml.lastStreamId last ≠ 0) (positive : stream ≠ 0)
  (whole : Whole config parsers ml stream input now)
  (current : (inputs stream)[(ml.appended stream).length]? = some input)
include one distinct steady accounts used positive whole current

theorem finished_of_start (unwilling : (lruFor ml stream).filter (accepts config ml stream input now) = none) {start : Ml}
    (kept : Steady config parsers inputs start) (frame : Frame ml start)
    (accounted : ∀ target, Account ml target [] → Account start target [])
    (skipping : ∀ ins, start.skips stream input (lruFor ml stream) ins = decide (lruFor ml stream = some ins))
    (untouched : ∀ ins, lruFor ml stream ≠ some ins → start.groupsOf ins stream = ml.groupsOf ins stream)
    (emptied : ∀ ins, lruFor ml stream = some ins → ∀ spot, piecesAt start stream ins spot = []) :
    Finished config parsers inputs stream ml
      (finish config parsers stream input now { processed := false, group := 0, lru := lruFor ml stream, ml := start }) := by
  have created : stream ∈ start.created := frame.created ▸ whole.created
  have verdict : ∀ ins, lruFor ml stream ≠ some ins →
      accepts config start stream input now ins = accepts config ml stream input now ins := by
    intro ins apart
    exact tryParser_congr frame (kept.alive.trans steady.alive.symm) (untouched ins apart)
  have chosen : taker config parsers ml stream input now = parsers.find? fun ins =>
      !start.skips stream input (lruFor ml stream) ins && accepts config start stream input now ins := by
    simp only [taker, unwilling]
    apply congrArg (parsers.find? ·)
    funext ins
    by_cases mine : lruFor ml stream = some ins
    · have refuses : accepts config ml stream input now ins = false := by
        simpa [mine] using unwilling
      rw [skipping, refuses, decide_eq_true mine, Bool.not_true, Bool.false_and]
    · simp [skipping, mine, verdict ins mine]
  have waitingFollows : ∀ other spot, piecesAt start stream other spot ≠ [] →
      lruFor ml stream ≠ some other ∧ Follows config parsers ml stream input now other spot := by
    intro other spot waiting
    have apart : lruFor ml stream ≠ some other := fun mine => waiting (emptied other mine spot)
    refine ⟨apart, whole.follows other spot ?_⟩
    simpa [piecesAt, untouched other apart] using waiting
  have room : ∀ ins ∈ parsers, start.skips stream input (lruFor ml stream) ins = false →
      Room config start stream input now ins := by
    intro ins member unskipped line made
    rw [untouched ins (by simpa [skipping] using unskipped)]
    exact whole.room ins member line made
  obtain ⟨middle, idle, result⟩ := parserLoop_cases (lruFor ml stream) parsers distinct (fun _ => id)
    (Idle.refl kept) created (fun _ _ => rfl) room kept.alive
  rcases result with ⟨loop, refused⟩ | ⟨ins, member, unskipped, found, willing, same, loop⟩
  · have nobody : taker config parsers ml stream input now = none := by
      rw [chosen]
      apply List.find?_eq_none.mpr
      intro ins member
      cases skipped : start.skips stream input (lruFor ml stream) ins with
      | true => simp
      | false => simp [refused ins member skipped]
    have leaves := whole.leaves
    simp only [Leaves, nobody] at leaves
    obtain ⟨first, last, among⟩ : ∃ first, (lruFor ml stream).or parsers.head? = some first ∧ first ∈ parsers := by
      cases mine : lruFor ml stream with
      | none =>
        obtain ⟨first, rest, rfl⟩ := exists_cons_of_ne_nil one
        exact ⟨first, rfl, mem_cons_self ..⟩
      | some last => exact ⟨last, rfl, (used last (filter_eq_some_iff.mp mine).1).1⟩
    have entered : Entered config parsers inputs stream middle
        (middle.passOn config stream input now (lruFor ml stream) parsers) := by
      apply passOn_entered idle.steady (fun target => idle.accounts target [] (accounted target (accounts target)))
        (idle.frame.created ▸ created) last among _ leaves (by rw [idle.frame.appended, frame.appended]; exact current)
      intro other spot waiting
      rw [idle.pieces] at waiting
      have follows := (waitingFollows other spot waiting).2
      simp only [Follows, nobody] at follows
      exact Option.some.inj (follows.symm.trans last)
    rw [finish_of_none loop]
    refine ⟨⟨_, (entered.of_prior idle.frame fun target => idle.accounts target []).of_prior frame accounted, rfl⟩, ?_⟩
    intro last found
    have framed := (frame.trans idle.frame).trans entered.frame
    rw [if_neg (by simp), framed.lru] at found
    rw [if_neg (by simp), framed.lastStreamId]
    exact used last found
  · have chosenOne := chosen.trans found
    have leaves := whole.leaves
    simp only [Leaves, chosenOne] at leaves
    have willingNow : accepts config middle stream input now ins = true := by
      rw [tryParser_congr idle.frame (idle.steady.alive.trans kept.alive.symm) same]
      exact willing
    have whereIt : middle.groupsOf ins stream = ml.groupsOf ins stream :=
      same.trans (untouched ins (by simpa [skipping] using unskipped))
    have finished : Finished config parsers inputs stream start (finish config parsers stream input now
        { processed := false, group := 0, lru := lruFor ml stream, ml := start }) := by
      apply idle.finished (fun target => accounted target (accounts target)) member created positive willingNow
        _ _ (by rw [frame.appended]; exact current) _ loop rfl
      · intro line made
        rw [whereIt]
        exact whole.room ins member line made
      · intro line place groups group made got here
        rw [whereIt] at got
        exact leaves line place groups group made got here
      · intro other spot waiting
        obtain ⟨different, follows⟩ := waitingFollows other spot waiting
        rw [landing_congr whereIt]
        exact follows.of_taker chosenOne different
    obtain ⟨after, entered, state⟩ := finished.entered
    exact ⟨⟨after, entered.of_prior frame accounted, state⟩, finished.used⟩

theorem finished_of_none (unused : lruFor ml stream = none) : Finished config parsers inputs stream ml
      (finish config parsers stream input now { processed := false, group := 0, lru := none, ml }) := by
  have finished := @finished_of_start _ _ _ _ _ _ _ one distinct steady accounts used positive whole current
    (by simp [unused]) ml steady (Frame.refl ml) (fun _ => id) (by simp [unused, skips]) (fun _ _ => rfl) (by simp [unused])
  rw [unused] at finished
  exact finished

theorem finished_of_refused (mine : lruFor ml stream = some last)
    (refuses : accepts config ml stream input now last = false) :
    Finished config parsers inputs stream ml (finish config parsers stream input now
        { processed := false, group := 0, lru := some last
          ml := (ml.tryParser config last stream input now).2.flushParserInstance config last stream now }) := by
  have among := (used last (filter_eq_some_iff.mp mine).1).1
  have opened := steady.opened last stream whole.created
  -- The attempt leaves the buffers alone and the flush empties those of the parser.
  obtain ⟨groups, widened, tried⟩ : ∃ groups, Widened (ml.groupsOf last stream) groups ∧
      (ml.tryParser config last stream input now).2 = ml.deliver last stream groups [] := by
    rcases tryParser_cases steady.alive whole.created opened (whole.room last among) with
      ⟨_, groups, widened, state⟩ | ⟨taken, _⟩
    · exact ⟨groups, widened, state⟩
    · simp [accepts, taken] at refuses
  have idle := (@Idle.refl config parsers inputs ml stream steady).refused among whole.created widened
  rw [tried]
  obtain ⟨kept, accounted⟩ := @flushParserInstance_keeps config parsers inputs _ last stream idle.steady among now
  have frame := idle.frame.trans (@frame_flushParserInstance config (ml.deliver last stream groups []) last stream now)
  rw [← mine]
  apply finished_of_start one distinct steady accounts used positive whole current _ kept frame
  · exact fun target account => accounted target [] (idle.accounts target [] account)
  · intro ins
    rw [mine, skips_last frame mine]
    simp
  · intro other apart
    have differs : other ≠ last := by
      rintro rfl
      exact apart mine
    rw [groupsOf_flushParserInstance_of_ne differs, groupsOf_deliver_of_ne (.inl differs)]
  · intro other own spot
    cases mine.symm.trans own
    exact piecesAt_flushParserInstance idle.steady among whole.created (.inr rfl) now spot
  · simp [mine, refuses]

end

theorem finished_of_last (distinct : parsers.Nodup) (steady : Steady config parsers inputs ml)
    (accounts : ∀ target, Account ml target [])
    (used : ∀ last, ml.lru 0 = some last → last ∈ parsers ∧ ml.lastStreamId last ≠ 0)
    (whole : Whole config parsers ml stream input now)
    (current : (inputs stream)[(ml.appended stream).length]? = some input) (mine : lruFor ml stream = some last)
    (willing : accepts config ml stream input now last = true) : Finished config parsers inputs stream ml
      (finish config parsers stream input now
        { processed := true, group := 0, lru := some last
          ml := (ml.tryParser config last stream input now).2 }) := by
  obtain ⟨isLru, isMine⟩ := filter_eq_some_iff.mp mine
  have among := (used last isLru).1
  have opened := steady.opened last stream whole.created
  have chosen : taker config parsers ml stream input now = some last := by
    have taken : (some last).filter (accepts config ml stream input now) = some last := by
      simp [willing]
    simp [taker, mine, taken]
  have leaves := whole.leaves
  simp only [Leaves, chosen] at leaves
  obtain ⟨taken⟩ : Nonempty (Taken config ml last stream input now (ml.tryParser config last stream input now).2) := by
    rcases tryParser_cases steady.alive whole.created opened (whole.room last among) with
      ⟨refused, _⟩ | ⟨_, taken⟩
    · simp [accepts, refused] at willing
    · exact taken
  have untouched : ∀ other, other ≠ last →
      (ml.tryParser config last stream input now).2.groupsOf other stream = ml.groupsOf other stream := by
    intro other apart
    rw [taken.state, groupsOf_deliver_of_ne (.inl apart)]
  have entered : Entered config parsers inputs stream ml (ml.tryParser config last stream input now).2 := by
    apply (Idle.refl steady).entered accounts among whole.created taken
      (leaves taken.line taken.place taken.groups taken.group taken.made taken.got taken.here) current
    intro other spot waiting
    have follows := whole.follows other spot waiting
    simp only [Follows, chosen, mine] at follows
    rcases follows with ⟨rfl, lands⟩ | ⟨apart, same⟩
    · refine ⟨rfl, ?_⟩
      have here : landing config ml stream input now last = some taken.place := by
        simp [landing, taken.made, taken.got]
      exact Option.some.inj (lands.symm.trans here)
    · exact absurd (Option.some.inj same) apart
  generalize (ml.tryParser config last stream input now).2 = start at entered untouched ⊢
  have frame := entered.frame
  have skipping := @skips_last _ stream input start frame last mine
  have room : ∀ ins ∈ parsers, start.skips stream input (some last) ins = false →
      Room config start stream input now ins := by
    intro ins member unskipped line made
    have apart : last ≠ ins := by simpa [skipping] using unskipped
    rw [untouched ins (Ne.symm apart)]
    exact whole.room ins member line made
  obtain ⟨middle, idle, result⟩ := parserLoop_cases (some last) parsers distinct (fun _ => id)
    (Idle.refl entered.steady) (frame.created ▸ whole.created) (fun _ _ => rfl) room entered.steady.alive
  rcases result with ⟨loop, _⟩ | ⟨ins, member, unskipped, _, another, _⟩
  · rw [finish_of_none loop]
    refine ⟨⟨_, entered.idle idle, rfl⟩, ?_⟩
    intro last found
    have framed := frame.trans idle.frame
    rw [if_pos rfl, framed.lru] at found
    rw [if_pos rfl, framed.lastStreamId]
    exact used last found
  · have apart : last ≠ ins := by simpa [skipping] using unskipped
    have refusal := whole.once last mine willing ins member (Ne.symm apart)
    rw [tryParser_congr frame (entered.steady.alive.trans steady.alive.symm) (untouched ins (Ne.symm apart)),
      refusal] at another
    cases another

/-! ### Runs -/

structure Books (config : Config) (parsers : List Ins) (ml : Ml) : Prop where
  steady : Steady config parsers ml.appended ml
  accounts : ∀ stream, Account ml stream []
  used : ∀ last, ml.lru 0 = some last → last ∈ parsers ∧ ml.lastStreamId last ≠ 0
  positive : 0 ∉ ml.created

theorem books_initial (config : Config) (parsers : List Ins) : Books config parsers .initial := by
  refine ⟨⟨rfl, by simp [initial], by simp [initial], by simp [initial], by simp [initial], by simp [initial]⟩,
    ?_, by simp [initial], by simp [initial]⟩
  intro stream
  exact ⟨0, 0, by simp [piecesAt, initial], by simp [piecesAt, sent, initial]⟩

theorem Steady.mono {more : StreamId → List Input} (steady : Steady config parsers inputs ml)
    (longer : ∀ stream, inputs stream <+: more stream) : Steady config parsers more ml := by
  have still : ∀ stream (index : Nat) input, (inputs stream)[index]? = some input → (more stream)[index]? = some input := by
    intro stream index input found
    obtain ⟨tail, extended⟩ := longer stream
    rw [← extended, List.getElem?_append_left (List.getElem?_eq_some_iff.mp found).1]
    exact found
  have origin : ∀ (parser : Parser) stream (piece : Piece), piece.From parser (inputs stream) →
      piece.From parser (more stream) := by
    intro parser stream piece known
    obtain ⟨input, found, text⟩ := known
    exact ⟨input, still stream piece.index input found, text⟩
  refine ⟨steady.alive, steady.opened, steady.sound, ?_, steady.inside, ?_⟩
  · intro ins stream group member piece held
    exact origin _ stream piece (steady.origin ins stream group member piece held)
  · intro flushed member
    rcases steady.right flushed member with ⟨holds, known⟩ | ⟨index, tm, metadata, pieces, found⟩
    · exact .inl ⟨holds, fun piece held => origin _ _ piece (known piece held)⟩
    · exact .inr ⟨index, tm, metadata, pieces, still _ index _ found⟩

theorem Books.append (books : Books config parsers ml) (one : config.groups = [parsers]) (nonempty : parsers ≠ [])
    (whole : Whole config parsers ml stream input now) : Books config parsers (ml.append config stream input now) := by
  have distinct : parsers.Nodup := by simpa [one] using config.distinct
  have positive : stream ≠ 0 := by
    rintro rfl
    exact books.positive whole.created
  have steady : Steady config parsers (Function.update ml.appended stream (ml.appended stream ++ [input])) ml := by
    apply books.steady.mono
    intro target
    by_cases same : target = stream
    · subst same
      simp
    · simp [same]
  have current : (Function.update ml.appended stream (ml.appended stream ++ [input]) stream)[
      (ml.appended stream).length]? = some input := by
    simp
  obtain ⟨pass, loop, group, finished⟩ : ∃ pass : Pass,
      lruLoop config stream input now 0 [parsers] { processed := false, group := 0, lru := none, ml } = pass ∧
      pass.group = 0 ∧
      Finished config parsers (Function.update ml.appended stream (ml.appended stream ++ [input])) stream ml
        (finish config parsers stream input now pass) := by
    cases mine : lruFor ml stream with
    | none =>
      exact ⟨_, lruLoop_of_none mine fun last found => (books.used last found).2, rfl,
        finished_of_none nonempty distinct steady books.accounts books.used positive whole current mine⟩
    | some last =>
      cases willing : accepts config ml stream input now last with
      | true =>
        refine ⟨_, lruLoop_of_some mine, by simp [willing], ?_⟩
        simp only [willing, if_true]
        exact finished_of_last distinct steady books.accounts books.used whole current mine willing
      | false =>
        refine ⟨_, lruLoop_of_some mine, by simp [willing], ?_⟩
        simp only [willing, false_eq_true, if_false]
        exact finished_of_refused nonempty distinct steady books.accounts books.used positive whole current mine willing
  rw [append_eq one loop group]
  obtain ⟨⟨middle, entered, state⟩, used⟩ := finished
  generalize finish config parsers stream input now pass = done at state used
  have created : done.created = middle.created := by rw [state]
  have groups : done.groupsOf = middle.groupsOf := by rw [state]
  have flushed : done.flushed = middle.flushed := by rw [state]
  have appended : done.appended = ml.appended := by
    rw [state]
    exact entered.frame.appended
  have alive : done.crashed = middle.crashed := by rw [state]
  have pieces : ∀ target other spot, piecesAt done target other spot = piecesAt middle target other spot := by
    intro target other spot
    simp [piecesAt, groups]
  have sending : ∀ target, sent done target = sent middle target := by
    intro target
    simp [sent, flushed]
  rw [appended]
  refine ⟨⟨?_, ?_, ?_, ?_, ?_, ?_⟩, ?_, used, ?_⟩
  · exact alive.trans entered.steady.alive
  · simpa [created, groups] using entered.steady.opened
  · simpa [groups] using entered.steady.sound
  · simpa [groups] using entered.steady.origin
  · simpa [groups, created] using entered.steady.inside
  · simpa [flushed] using entered.steady.right
  · intro target
    by_cases same : target = stream
    · subst same
      obtain ⟨home, place, elsewhere, total⟩ := entered.account
      refine ⟨home, place, ?_, ?_⟩
      · intro other spot different
        exact (pieces target other spot).trans (elsewhere other spot different)
      · change (sent done target ++ piecesAt done target home place).map Piece.index = _
        rw [sending, pieces, total, entered.frame.appended]
        simp [range_succ]
    · obtain ⟨home, place, elsewhere, total⟩ := entered.others target same (books.accounts target)
      refine ⟨home, place, ?_, ?_⟩
      · intro other spot different
        exact (pieces target other spot).trans (elsewhere other spot different)
      · change (sent done target ++ piecesAt done target home place).map Piece.index = _
        rw [sending, pieces, total, entered.frame.appended]
        simp [same]
  · rw [created, entered.frame.created]
    exact books.positive

theorem Books.waits (books : Books config parsers ml) {place : Nat} (waiting : piecesAt ml stream ins place ≠ []) :
    ins ∈ parsers ∧ stream ∈ ml.created := by
  unfold piecesAt at waiting
  cases found : (ml.groupsOf ins stream)[place]? with
  | none => simp [found] at waiting
  | some group =>
    exact books.steady.inside ins stream group (mem_of_getElem? found) (by simpa [found] using waiting)

section

variable (books : Books config parsers ml)
include books

theorem Books.streamCreate (positive : stream ≠ 0) : Books config parsers (ml.streamCreate stream) := by
  unfold Ml.streamCreate
  split
  · exact books
  next fresh =>
    have groups : ∀ ins target, (Function.update (ml.groupsOf ins) stream [.create []] target =
        [StreamGroup.create []] ∧ target = stream) ∨
        (Function.update (ml.groupsOf ins) stream [.create []] target = ml.groupsOf ins target ∧ target ≠ stream) := by
      intro ins target
      by_cases same : target = stream
      · subst same
        exact .inl ⟨by simp, rfl⟩
      · exact .inr ⟨by simp [same], same⟩
    have unborn : ∀ ins place, piecesAt ml stream ins place = [] := by
      intro ins place
      by_contra waiting
      exact fresh (books.waits waiting).2
    refine ⟨⟨books.steady.alive, ?_, ?_, ?_, ?_, books.steady.right⟩, ?_, books.used, ?_⟩
    · intro ins target created
      rcases groups ins target with ⟨new, _⟩ | ⟨same, apart⟩
      · simp [new]
      · have earlier : target ∈ ml.created := (mem_append.mp created).resolve_right (by simpa using apart)
        simpa [same] using books.steady.opened ins target earlier
    · intro ins target group member
      rcases groups ins target with ⟨new, _⟩ | ⟨same, _⟩
      · simp only [new, mem_singleton] at member
        rw [member]
        exact sound_create _ _
      · exact books.steady.sound ins target group (by simpa [same] using member)
    · intro ins target group member
      rcases groups ins target with ⟨new, _⟩ | ⟨same, _⟩
      · simp only [new, mem_singleton] at member
        simp [member, StreamGroup.create]
      · exact books.steady.origin ins target group (by simpa [same] using member)
    · intro ins target group member some
      rcases groups ins target with ⟨new, _⟩ | ⟨same, _⟩
      · simp only [new, mem_singleton] at member
        simp [member, StreamGroup.create] at some
      · obtain ⟨among, created⟩ := books.steady.inside ins target group (by simpa [same] using member) some
        exact ⟨among, mem_append_left _ created⟩
    · intro target
      by_cases same : target = stream
      · subst same
        obtain ⟨home, place, _, total⟩ := books.accounts target
        rw [unborn, append_nil, append_nil] at total
        have born : ∀ other spot, piecesAt { ml with
            created := ml.created ++ [target]
            groupsOf := fun ins => Function.update (ml.groupsOf ins) target [.create []] } target other spot = [] := by
          intro other spot
          cases spot with
          | zero => simp [piecesAt, StreamGroup.create]
          | succ spot => simp [piecesAt]
        refine ⟨0, 0, fun other spot _ => born other spot, ?_⟩
        rw [born, append_nil, append_nil]
        exact total
      · obtain ⟨home, place, elsewhere, total⟩ := books.accounts target
        refine ⟨home, place, ?_, ?_⟩
        · intro other spot different
          simpa [piecesAt, same] using elsewhere other spot different
        · simpa [piecesAt, sent, same] using total
    · simpa using ⟨books.positive, Ne.symm positive⟩

theorem Books.flushAll (now : Nat) (flushed : List Ins) (subset : ∀ ins ∈ flushed, ins ∈ parsers) :
    Books config parsers (flushed.foldl (fun ml ins => ml.flushParserInstance config ins 0 now) ml) ∧
      Frame ml (flushed.foldl (fun ml ins => ml.flushParserInstance config ins 0 now) ml) ∧
      ∀ ins target place, (ins ∈ flushed ∧ target ∈ ml.created ∨ piecesAt ml target ins place = []) →
        piecesAt (flushed.foldl (fun ml ins => ml.flushParserInstance config ins 0 now) ml) target ins place = [] := by
  induction flushed generalizing ml with
  | nil => exact ⟨books, Frame.refl ml, by simp⟩
  | cons head flushed ih =>
    have among := subset head (by simp)
    have frame := @frame_flushParserInstance config ml head 0 now
    obtain ⟨kept, accounted⟩ := @flushParserInstance_keeps config parsers ml.appended ml head 0 books.steady among now
    have next : Books config parsers (ml.flushParserInstance config head 0 now) := by
      refine ⟨by rw [frame.appended]; exact kept, fun target => accounted target [] (books.accounts target), ?_, ?_⟩
      · rw [frame.lru, frame.lastStreamId]
        exact books.used
      · rw [frame.created]
        exact books.positive
    obtain ⟨final, framed, emptied⟩ := ih next fun ins member => subset ins (mem_cons_of_mem _ member)
    refine ⟨final, frame.trans framed, ?_⟩
    intro ins target place waiting
    apply emptied
    by_cases same : ins = head
    · subst same
      refine .inr ?_
      by_cases created : target ∈ ml.created
      · exact piecesAt_flushParserInstance books.steady among created (.inl rfl) now place
      · by_contra waiting
        exact created (frame.created ▸ (next.waits waiting).2)
    · rcases waiting with ⟨member, created⟩ | empty
      · exact .inl ⟨(mem_cons.mp member).resolve_left same, frame.created ▸ created⟩
      · refine .inr ?_
        simpa [piecesAt, groupsOf_flushParserInstance_of_ne same] using empty

theorem Books.flushPending (one : config.groups = [parsers]) (now : Nat) :
    Books config parsers (ml.flushPending config now) ∧
      ∀ ins target place, piecesAt (ml.flushPending config now) target ins place = [] := by
  have head : config.groups.headD [] = parsers := by simp [one]
  unfold Ml.flushPending
  rw [head]
  obtain ⟨final, _, emptied⟩ := books.flushAll now parsers fun _ => id
  refine ⟨final, ?_⟩
  intro ins target place
  apply emptied
  by_cases waiting : piecesAt ml target ins place = []
  · exact .inr waiting
  · exact .inl (books.waits waiting)

end

def Undivided (config : Config) (parsers : List Ins) (ml : Ml) : Event → Prop
  | .streamCreate stream => stream ≠ 0
  | .append stream input now => Whole config parsers ml stream input now
  | .flushPending _ => True

theorem Books.step (books : Books config parsers ml) (one : config.groups = [parsers]) (nonempty : parsers ≠ [])
    (event : Event) (undivided : Undivided config parsers ml event) : Books config parsers (step config event ml) := by
  unfold Multiline.step
  rw [if_neg (by simp [books.steady.alive])]
  cases event with
  | streamCreate stream => exact books.streamCreate undivided
  | append stream input now => exact books.append one nonempty undivided
  | flushPending now => exact (books.flushPending one now).1

/-- Every append of the stream is in one record, in the order of the appends, and the
records hold what was appended. -/
structure Delivered (config : Config) (ml : Ml) (stream : StreamId) : Prop where
  once : (sent ml stream).map Piece.index = List.range (ml.appended stream).length
  contents : ∀ flushed ∈ ml.flushed, flushed.stream = stream → flushed.Right config ml.appended

theorem landing_of_ungrouped (ungrouped : (config.parser ins).grouped = false)
    (made : lineOf config ins input now = some line) : landing config ml stream input now ins = some 0 := by
  simp [landing, made, streamGroupGet, ungrouped]

theorem parseText_map {parse : Bytes → Option (Map × Nat)} (parsed : parseText parse tm text = some converted) :
    converted.map ≠ none := by
  obtain ⟨found, _, rfl⟩ := map_eq_some_iff.mp parsed
  simp

theorem convert_raw {parser : Parser} (found : convert parser input = some converted) (raw : converted.map = none) :
    ∃ tm, input = .text tm converted.text := by
  unfold convert at found
  split at found
  · cases found
    exact ⟨_, rfl⟩
  · exact absurd raw (parseText_map found)
  · cases found
    cases raw
  · split at found
    · cases found
      cases raw
    · exact absurd raw (parseText_map found)
    · cases found

theorem seen_of_nonempty (filled : ∀ tm, input ≠ .text tm []) (made : lineOf config ins input now = some line)
    (group : StreamGroup) : line.Seen (config.parser ins) group := by
  obtain ⟨converted, found, selected⟩ := bind_eq_some_iff.mp made
  unfold selectLine at selected
  cases map : converted.map with
  | some entries =>
    simp only [map] at selected
    obtain ⟨content, _, rfl⟩ := map_eq_some_iff.mp selected
    exact .inl rfl
  | none =>
    simp only [map, Option.some.injEq] at selected
    subst selected
    obtain ⟨tm, text⟩ := convert_raw found map
    refine .inr (.inl ?_)
    intro empty
    exact filled tm (text.trans (congrArg _ empty))

theorem accepts_of_taker (taken : taker config parsers ml stream input now = some ins) :
    accepts config ml stream input now ins = true := by
  unfold taker at taken
  split at taken
  next last found =>
    obtain rfl := Option.some.inj taken
    exact (filter_eq_some_iff.mp found).2
  · exact List.find?_some taken

theorem whole_of_single (books : Books config [ins] ml) (ungrouped : (config.parser ins).grouped = false)
    (created : stream ∈ ml.created) (single : ∀ place, piecesAt ml stream ins (place + 1) = [])
    (filled : ∀ tm, input ≠ .text tm []) : Whole config [ins] ml stream input now := by
  have onlyLast : ∀ last, lruFor ml stream = some last → last = ins := by
    intro last mine
    simpa using (books.used last (filter_eq_some_iff.mp mine).1).1
  have onlyTaker : ∀ other, taker config [ins] ml stream input now = some other → other = ins := by
    intro other taken
    unfold taker at taken
    split at taken
    next last found =>
      obtain rfl := Option.some.inj taken
      exact onlyLast last (filter_eq_some_iff.mp found).1
    · simpa using mem_of_find?_eq_some taken
  have room : Room config ml stream input now ins := by
    intro line _
    simp [streamGroupGet, ungrouped]
  refine ⟨created, ?_, ?_, ?_, ?_⟩
  · intro other member
    obtain rfl : other = ins := by simpa using member
    exact room
  · intro last mine _ other member apart
    obtain rfl : other = ins := by simpa using member
    exact absurd (onlyLast last mine).symm apart
  · intro other place waiting
    obtain rfl : other = ins := by simpa using (books.waits waiting).1
    obtain rfl : place = 0 := by
      cases place with
      | zero => rfl
      | succ place => exact absurd (single place) waiting
    unfold Follows
    cases taken : taker config [other] ml stream input now with
    | some first =>
      obtain rfl := onlyTaker first taken
      have willing := accepts_of_taker taken
      rcases tryParser_cases books.steady.alive created (books.steady.opened first stream created) room with
        ⟨refused, _⟩ | ⟨_, ⟨took⟩⟩
      · simp [accepts, refused] at willing
      · exact .inl ⟨rfl, landing_of_ungrouped ungrouped took.made⟩
    | none =>
      cases mine : lruFor ml stream with
      | none => rfl
      | some last =>
        obtain rfl := onlyLast last mine
        rfl
  · unfold Leaves
    split
    · intro line place groups group made _ _
      exact seen_of_nonempty filled made group
    · exact filled

end

def untilStop : Parser :=
  { kind := .eq, matchStr := [46], negate := false, keyContent := none, keyPattern := none, keyGroup := none
    grouped := false, parser := none }

def oneParser : Config :=
  { groups := [[0]], parser := fun _ => untilStop, hash := fun _ => 0, distinct := nodup_single }

def twoLines : List Event :=
  [.streamCreate 7, .append 7 (.text 1 [97]) 1, .append 7 (.text 2 [98]) 2]

def twoParsers : Config :=
  { groups := [[0, 1]], parser := fun _ => untilStop, hash := fun _ => 0, distinct := by decide }

end FluentBit.Multiline
