import FluentBit.Multiline.Engine

/-! Where the lines of a stream are. Those that were not sent yet are in one buffer, so
that the records of the stream followed by that buffer are what was appended, in its
order. The steps of an append keep this as long as a line goes to that buffer. -/

set_option autoImplicit false

namespace FluentBit.Multiline

open List Function

/-! ### Where the lines are -/

def piecesAt (ml : Ml) (stream : StreamId) (ins : Ins) (place : Nat) : List Piece :=
  ((ml.groupsOf ins stream)[place]?.map StreamGroup.pieces).getD []

def sent (ml : Ml) (stream : StreamId) : List Piece :=
  ml.flushed.flatMap fun flushed => if flushed.stream = stream then flushed.parcel.pieces else []

def Account (ml : Ml) (stream : StreamId) (extra : List Nat) : Prop :=
  ∃ ins place, (∀ other spot, (other, spot) ≠ (ins, place) → piecesAt ml stream other spot = []) ∧
    (sent ml stream ++ piecesAt ml stream ins place).map Piece.index =
      List.range (ml.appended stream).length ++ extra

def contentFor (parser : Parser) (input : Input) : Option Bytes :=
  (convert parser input).bind fun converted =>
    match converted.map with
    | none => some converted.text
    | some map => getKey map parser.keyContent

def Piece.From (parser : Parser) (inputs : List Input) (piece : Piece) : Prop :=
  ∃ input, inputs[piece.index]? = some input ∧
    (contentFor parser input = some piece.text ∨ ∃ tm, input = .text tm piece.text)

def Flushed.Right (config : Config) (inputs : StreamId → List Input) (flushed : Flushed) : Prop :=
  (flushed.parcel.Holds (config.parser flushed.ins) ∧
      ∀ piece ∈ flushed.parcel.pieces, piece.From (config.parser flushed.ins) (inputs flushed.stream)) ∨
    ∃ index tm metadata, flushed.parcel.pieces = [{ index, text := [] }] ∧
      (inputs flushed.stream)[index]? = some (.object tm metadata flushed.parcel.record.body)

/-- What holds between the steps of an append; `inputs` has the current input already. -/
structure Steady (config : Config) (parsers : List Ins) (inputs : StreamId → List Input) (ml : Ml) : Prop where
  alive : ml.crashed = false
  opened : ∀ ins, ∀ stream ∈ ml.created, ml.groupsOf ins stream ≠ []
  sound : ∀ ins stream, ∀ group ∈ ml.groupsOf ins stream, Sound (config.parser ins) group
  origin : ∀ ins stream, ∀ group ∈ ml.groupsOf ins stream, ∀ piece ∈ group.pieces,
    piece.From (config.parser ins) (inputs stream)
  inside : ∀ ins stream, ∀ group ∈ ml.groupsOf ins stream, group.pieces ≠ [] → ins ∈ parsers ∧ stream ∈ ml.created
  right : ∀ flushed ∈ ml.flushed, flushed.Right config inputs

section

variable {config : Config} {parsers : List Ins} {inputs : StreamId → List Input} {ml : Ml} {ins other : Ins} {stream target : StreamId}
  {extra : List Nat} {input : Input} {now : Nat}

theorem sent_deliver_self (groups : List StreamGroup) (parcels : List Parcel) :
    sent (ml.deliver ins stream groups parcels) stream = sent ml stream ++ parcels.flatMap Parcel.pieces := by
  simp [sent, flatMap_map]

variable {groups : List StreamGroup} {parcels : List Parcel}

theorem sent_deliver_of_ne (apart : target ≠ stream) :
    sent (ml.deliver ins stream groups parcels) target = sent ml target := by
  simp [sent, flatMap_map, apart.symm]

theorem piecesAt_deliver_self (place : Nat) : piecesAt (ml.deliver ins stream groups parcels) stream ins place =
      (groups[place]?.map StreamGroup.pieces).getD [] := by
  simp [piecesAt]

theorem piecesAt_deliver_of_ne (apart : other ≠ ins ∨ target ≠ stream) (place : Nat) :
    piecesAt (ml.deliver ins stream groups parcels) target other place = piecesAt ml target other place := by
  simp [piecesAt, Ml.groupsOf_deliver_of_ne apart]

theorem exists_piecesAt {group : StreamGroup} (member : group ∈ ml.groupsOf ins stream) :
    ∃ place, piecesAt ml stream ins place = group.pieces := by
  obtain ⟨place, found⟩ := mem_iff_getElem?.mp member
  exact ⟨place, by simp [piecesAt, found]⟩

theorem Account.deliver_of_ne (account : Account ml target extra) (apart : target ≠ stream) :
    Account (ml.deliver ins stream groups parcels) target extra := by
  obtain ⟨home, place, elsewhere, total⟩ := account
  refine ⟨home, place, ?_, ?_⟩
  · intro other spot different
    rw [piecesAt_deliver_of_ne (.inr apart)]
    exact elsewhere other spot different
  · rw [sent_deliver_of_ne apart, piecesAt_deliver_of_ne (.inr apart)]
    exact total

theorem flatMap_eq_of_only {α β : Type} (f : α → List β) (list : List α) (place : Nat)
    (only : ∀ spot, spot ≠ place → (list[spot]?.map f).getD [] = []) :
    list.flatMap f = (list[place]?.map f).getD [] := by
  induction list generalizing place with
  | nil => simp
  | cons head tail ih =>
    cases place with
    | zero =>
      have rest : tail.flatMap f = [] := by
        apply flatMap_eq_nil_iff.mpr
        intro value member
        obtain ⟨spot, bound, rfl⟩ := mem_iff_getElem.mp member
        simpa [bound] using only (spot + 1) (by simp)
      simp [rest]
    | succ place =>
      have first : f head = [] := by simpa using only 0 (by simp)
      have rest := ih place fun spot different => by simpa using only (spot + 1) (by simpa using different)
      simp [first, rest]

theorem map_index_flush (hash : Value × Value → Nat)
    (sound : ∀ group ∈ groups, Sound (config.parser ins) group) :
    (groups.flatMap fun group => (flushStreamGroup hash (config.parser ins) now group).2).flatMap Parcel.pieces =
      groups.flatMap StreamGroup.pieces := by
  induction groups with
  | nil => rfl
  | cons group groups ih =>
    have first := ((sound group (by simp)).flushStreamGroup hash now).sent
    have rest := ih fun other member => sound other (mem_cons_of_mem _ member)
    simp [first, rest]

theorem piecesAt_flushStream_self (sound : ∀ group ∈ ml.groupsOf ins stream, Sound (config.parser ins) group)
    (now : Nat) (place : Nat) : piecesAt (ml.flushStream config now ins stream) stream ins place = [] := by
  unfold Ml.flushStream
  simp only [piecesAt_deliver_self, map_map]
  cases found : (ml.groupsOf ins stream)[place]? with
  | none => simp [found]
  | some group =>
    have empties := (sound group (mem_of_getElem? found)).flushStreamGroup config.hash now
    simp [found, empties.pieces]

theorem Account.flushStream (account : Account ml target extra)
    (sound : ∀ group ∈ ml.groupsOf ins stream, Sound (config.parser ins) group) (now : Nat) :
    Account (ml.flushStream config now ins stream) target extra := by
  by_cases apart : target = stream
  · subst apart
    obtain ⟨home, place, elsewhere, total⟩ := account
    have emptied := piecesAt_flushStream_self sound now
    have untouched : ∀ other spot, other ≠ ins →
        piecesAt (ml.flushStream config now ins target) target other spot = piecesAt ml target other spot := by
      intro other spot different
      exact piecesAt_deliver_of_ne (.inl different) spot
    have sends : sent (ml.flushStream config now ins target) target =
        sent ml target ++ (ml.groupsOf ins target).flatMap StreamGroup.pieces := by
      unfold Ml.flushStream
      simp only [sent_deliver_self, flatMap_map]
      rw [map_index_flush config.hash sound]
    refine ⟨home, place, ?_, ?_⟩
    · intro other spot different
      by_cases same : other = ins
      · subst same
        exact emptied spot
      · rw [untouched other spot same]
        exact elsewhere other spot different
    · refine Eq.trans ?_ total
      rw [sends]
      by_cases same : home = ins
      · subst same
        have all := flatMap_eq_of_only StreamGroup.pieces (ml.groupsOf home target) place fun spot different =>
          elsewhere home spot (by simp [different])
        rw [emptied, all]
        simp [piecesAt]
      · have none := flatMap_eq_of_only StreamGroup.pieces (ml.groupsOf ins target) 0 fun spot _ =>
          elsewhere ins spot (by simp [Ne.symm same])
        have first : ((ml.groupsOf ins target)[0]?.map StreamGroup.pieces).getD [] = [] :=
          elsewhere ins 0 (by simp [Ne.symm same])
        rw [untouched home place same, none, first, append_nil]
  · exact account.deliver_of_ne apart

/-! ### The parts of an append -/

/-- A delivery keeps the accounts of all streams right. -/
theorem Steady.deliver (steady : Steady config parsers inputs ml) (among : ins ∈ parsers)
    (created : stream ∈ ml.created) (nonempty : groups ≠ []) (sound : ∀ group ∈ groups, Sound (config.parser ins) group)
    (origin : ∀ group ∈ groups, ∀ piece ∈ group.pieces, piece.From (config.parser ins) (inputs stream))
    (right : ∀ parcel ∈ parcels, (Flushed.mk ins stream parcel).Right config inputs) :
    Steady config parsers inputs (ml.deliver ins stream groups parcels) := by
  have place : ∀ other target, (ml.deliver ins stream groups parcels).groupsOf other target = groups ∧
        other = ins ∧ target = stream ∨
      (ml.deliver ins stream groups parcels).groupsOf other target = ml.groupsOf other target := by
    intro other target
    by_cases same : other = ins ∧ target = stream
    · obtain ⟨rfl, rfl⟩ := same
      exact .inl ⟨Ml.groupsOf_deliver_self _ _, rfl, rfl⟩
    · exact .inr (Ml.groupsOf_deliver_of_ne (by tauto))
  constructor
  · exact steady.alive
  · intro other target created
    rcases place other target with ⟨here, _, _⟩ | unchanged
    · rw [here]
      exact nonempty
    · rw [unchanged]
      exact steady.opened other target created
  · intro other target
    rcases place other target with ⟨here, rfl, rfl⟩ | unchanged
    · rw [here]
      exact sound
    · rw [unchanged]
      exact steady.sound other target
  · intro other target
    rcases place other target with ⟨here, rfl, rfl⟩ | unchanged
    · rw [here]
      exact origin
    · rw [unchanged]
      exact steady.origin other target
  · intro other target
    rcases place other target with ⟨here, rfl, rfl⟩ | unchanged
    · exact fun _ _ _ => ⟨among, created⟩
    · rw [unchanged]
      exact steady.inside other target
  · intro flushed member
    rcases mem_append.mp member with earlier | now
    · exact steady.right flushed earlier
    · obtain ⟨parcel, among, rfl⟩ := mem_map.mp now
      exact right parcel among

theorem Steady.flushStream (steady : Steady config parsers inputs ml) (among : ins ∈ parsers)
    (created : stream ∈ ml.created) (now : Nat) :
    Steady config parsers inputs (ml.flushStream config now ins stream) := by
  have empties : ∀ group ∈ ml.groupsOf ins stream,
      Empties (config.parser ins) group (flushStreamGroup config.hash (config.parser ins) now group) := by
    intro group member
    exact (steady.sound ins stream group member).flushStreamGroup config.hash now
  apply steady.deliver among created
  · simpa using steady.opened ins stream created
  · intro group member
    simp only [map_map, mem_map, comp_apply] at member
    obtain ⟨before, among, rfl⟩ := member
    exact (empties before among).sound
  · intro group member piece inside
    simp only [map_map, mem_map, comp_apply] at member
    obtain ⟨before, among, rfl⟩ := member
    simp [(empties before among).pieces] at inside
  · intro parcel member
    simp only [flatMap_map, mem_flatMap] at member
    obtain ⟨before, among, out⟩ := member
    refine .inl ⟨(empties before among).holds parcel out, ?_⟩
    intro piece inside
    apply steady.origin ins stream before among
    rw [← (empties before among).sent]
    exact mem_flatMap.mpr ⟨parcel, out, inside⟩

theorem flushParserInstance_keeps (steady : Steady config parsers inputs ml) (among : ins ∈ parsers) (now : Nat) :
    Steady config parsers inputs (ml.flushParserInstance config ins stream now) ∧
      ∀ target extra, Account ml target extra →
        Account (ml.flushParserInstance config ins stream now) target extra := by
  apply (@Ml.flushParserInstance_induction config ml ins stream now (fun after => Steady config parsers inputs after ∧
      ∀ target extra, Account ml target extra → Account after target extra) _ _).1
  · exact ⟨steady, fun _ _ => id⟩
  · intro state target created _ holds
    obtain ⟨steady, accounts⟩ := holds
    refine ⟨steady.flushStream among created now, ?_⟩
    intro other extra account
    exact (accounts other extra account).flushStream (steady.sound ins target) now

theorem piecesAt_flushParserInstance (steady : Steady config parsers inputs ml) (among : ins ∈ parsers)
    (created : target ∈ ml.created) (meant : stream = 0 ∨ target = stream) (now place : Nat) :
    piecesAt (ml.flushParserInstance config ins stream now) target ins place = [] := by
  have loop : ∀ (streams : List StreamId) (state : Ml), Steady config parsers inputs state →
      (∀ flushed ∈ streams, flushed ∈ state.created) →
      target ∈ streams ∨ piecesAt state target ins place = [] →
      piecesAt (streams.foldl (Ml.flushStream config now ins) state) target ins place = [] := by
    intro streams
    induction streams with
    | nil =>
      intro state _ _ done
      simpa using done
    | cons flushed streams ih =>
      intro state steady known done
      have here := known flushed (by simp)
      apply ih _ (steady.flushStream among here now)
      · intro later member
        exact known later (mem_cons_of_mem _ member)
      · by_cases same : flushed = target
        · subst same
          exact .inr (piecesAt_flushStream_self (steady.sound ins flushed) now place)
        · rcases done with member | empty
          · exact .inl ((mem_cons.mp member).resolve_left (Ne.symm same))
          · exact .inr ((piecesAt_deliver_of_ne (.inr (Ne.symm same)) place).trans empty)
  apply loop _ ml steady
  · intro flushed member
    exact (mem_filter.mp member).1
  · exact .inl (mem_filter.mpr ⟨created, by simpa using meant⟩)

theorem pieces_widened {before after : List StreamGroup} (widened : Ml.Widened before after) (place : Nat) :
    (after[place]?.map StreamGroup.pieces).getD [] = (before[place]?.map StreamGroup.pieces).getD [] := by
  rcases widened with rfl | ⟨name, rfl⟩
  · rfl
  · rcases Nat.lt_trichotomy place before.length with inside | rfl | outside
    · rw [List.getElem?_append_left inside]
    · simp [StreamGroup.create]
    · rw [List.getElem?_eq_none (by rw [length_append]; exact outside), List.getElem?_eq_none (Nat.le_of_lt outside)]

theorem Account.refused (account : Account ml target extra) (widened : Ml.Widened (ml.groupsOf ins stream) groups) :
    Account (ml.deliver ins stream groups []) target extra := by
  by_cases apart : target = stream
  · subst apart
    have same : ∀ other spot,
        piecesAt (ml.deliver ins target groups []) target other spot = piecesAt ml target other spot := by
      intro other spot
      by_cases here : other = ins
      · subst here
        rw [piecesAt_deliver_self]
        exact pieces_widened widened spot
      · exact piecesAt_deliver_of_ne (.inl here) spot
    obtain ⟨home, place, elsewhere, total⟩ := account
    refine ⟨home, place, ?_, ?_⟩
    · intro other spot different
      rw [same]
      exact elsewhere other spot different
    · refine Eq.trans ?_ total
      simp [same, sent_deliver_self]
  · exact account.deliver_of_ne apart

theorem Steady.refused (steady : Steady config parsers inputs ml) (among : ins ∈ parsers)
    (created : stream ∈ ml.created) (widened : Ml.Widened (ml.groupsOf ins stream) groups) :
    Steady config parsers inputs (ml.deliver ins stream groups []) := by
  have opened := steady.opened ins stream created
  have members : ∀ group ∈ groups, group ∈ ml.groupsOf ins stream ∨ ∃ name, group = .create name := by
    intro group member
    rcases widened with rfl | ⟨name, rfl⟩
    · exact .inl member
    · rcases mem_append.mp member with earlier | new
      · exact .inl earlier
      · exact .inr ⟨name, by simpa using new⟩
  apply steady.deliver among created
  · rcases widened with rfl | ⟨name, rfl⟩
    · exact opened
    · simp
  · intro group member
    rcases members group member with earlier | ⟨name, rfl⟩
    · exact steady.sound ins stream group earlier
    · exact sound_create _ name
  · intro group member piece inside
    rcases members group member with earlier | ⟨name, rfl⟩
    · exact steady.origin ins stream group earlier piece inside
    · simp [StreamGroup.create] at inside
  · simp

theorem lineOf_content {line : Line} (made : Ml.lineOf config ins input now = some line) :
    line.Fits (config.parser ins) ∧ contentFor (config.parser ins) input = some line.content := by
  unfold Ml.lineOf at made
  obtain ⟨converted, found, selected⟩ := Option.bind_eq_some_iff.mp made
  unfold contentFor
  unfold selectLine at selected
  simp only [found, Option.bind_some]
  cases map : converted.map with
  | none =>
    simp only [map, Option.some.injEq] at selected
    subst selected
    exact ⟨by simp [Line.Fits], rfl⟩
  | some entries =>
    simp only [map] at selected
    obtain ⟨content, got, rfl⟩ := Option.map_eq_some_iff.mp selected
    exact ⟨by simp [Line.Fits, HasContent, got], got⟩

theorem Account.taken (account : Account ml stream []) {after : Ml}
    (taken : Ml.Taken config ml ins stream input now after)
    (takes : Takes (config.parser ins) (ml.appended stream).length taken.line taken.group taken.result)
    (widened : Ml.Widened (ml.groupsOf ins stream) taken.groups)
    (joins : ∀ other spot, piecesAt ml stream other spot ≠ [] → other = ins ∧ spot = taken.place) :
    Account after stream [(ml.appended stream).length] := by
  obtain ⟨line, place, groups, group, result, made, got, here, packaged, rfl⟩ := taken
  simp only at takes widened joins
  have bound : place < groups.length := (List.getElem?_eq_some_iff.mp here).1
  have held : piecesAt ml stream ins place = group.pieces := by
    have widening := pieces_widened widened place
    simpa [piecesAt, here] using widening.symm
  have outside : ∀ other spot, (other, spot) ≠ (ins, place) → piecesAt ml stream other spot = [] := by
    intro other spot different
    by_contra some
    obtain ⟨rfl, rfl⟩ := joins other spot some
    exact different rfl
  have before : (sent ml stream ++ group.pieces).map Piece.index = List.range (ml.appended stream).length := by
    obtain ⟨home, at', elsewhere, total⟩ := account
    rw [append_nil] at total
    rw [← total, ← held]
    by_cases same : (home, at') = (ins, place)
    · cases same
      rfl
    · rw [outside home at' same, elsewhere ins place (Ne.symm same)]
  refine ⟨ins, place, ?_, ?_⟩
  · intro other spot different
    by_cases same : other = ins
    · subst same
      have apart : place ≠ spot := by
        rintro rfl
        exact different rfl
      rw [piecesAt_deliver_self, List.getElem?_set_ne apart, pieces_widened widened]
      exact outside other spot different
    · rw [piecesAt_deliver_of_ne (.inl same)]
      exact outside other spot different
  · rw [sent_deliver_self, piecesAt_deliver_self, List.getElem?_set_self bound]
    simp only [Option.map_some, Option.getD_some, append_assoc, takes.pieces]
    rw [← append_assoc, map_append, before]
    rfl

theorem Steady.taken (steady : Steady config parsers inputs ml) (among : ins ∈ parsers)
    (created : stream ∈ ml.created) {after : Ml} (taken : Ml.Taken config ml ins stream input now after)
    (takes : Takes (config.parser ins) (ml.appended stream).length taken.line taken.group taken.result)
    (widened : Ml.Widened (ml.groupsOf ins stream) taken.groups)
    (current : (inputs stream)[(ml.appended stream).length]? = some input) : Steady config parsers inputs after := by
  have opened := steady.refused among created widened
  obtain ⟨line, place, groups, group, result, made, got, here, packaged, rfl⟩ := taken
  simp only at takes opened
  have sound := opened.sound ins stream
  have origin := opened.origin ins stream
  simp only [Ml.groupsOf_deliver_self] at sound origin
  have known : group ∈ groups := mem_of_getElem? here
  -- The pieces the group had and the new one.
  have from' : ∀ piece ∈ result.2.flatMap Parcel.pieces ++ result.1.pieces,
      piece.From (config.parser ins) (inputs stream) := by
    intro piece member
    rw [takes.pieces] at member
    rcases mem_append.mp member with earlier | new
    · exact origin group known piece earlier
    · obtain rfl := mem_singleton.mp new
      exact ⟨input, current, .inl (lineOf_content made).2⟩
  apply steady.deliver among created
  · intro empty
    have size := congrArg List.length empty
    rw [length_set] at size
    rw [eq_nil_of_length_eq_zero size] at known
    cases known
  · intro changed member
    rcases mem_or_eq_of_mem_set member with earlier | rfl
    · exact sound changed earlier
    · exact takes.sound
  · intro changed member piece inside
    rcases mem_or_eq_of_mem_set member with earlier | rfl
    · exact origin changed earlier piece inside
    · exact from' piece (mem_append_right _ inside)
  · intro parcel member
    refine .inl ⟨takes.holds parcel member, ?_⟩
    intro piece inside
    exact from' piece (mem_append_left _ (mem_flatMap.mpr ⟨parcel, member, inside⟩))

end

end FluentBit.Multiline
