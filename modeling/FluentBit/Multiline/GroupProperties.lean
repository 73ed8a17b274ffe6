import FluentBit.Multiline.Group

/-! What a group does with the lines it is given: none is lost or added between the
buffer and the records, and the content of a record is its lines. -/

set_option autoImplicit false

namespace FluentBit.Multiline

inductive Woven : Bytes → List Bytes → Prop where
  | empty : Woven [] []
  | text {content : Bytes} {texts : List Bytes} (next : Bytes) :
      Woven content texts → Woven (content ++ next) (texts ++ [next])
  | lineBreak {content : Bytes} {texts : List Bytes} :
      Woven content texts → Woven (content ++ [newline]) texts

def contentOf (name : Bytes) (body : Map) : Option Value :=
  (body.find? fun entry => keyIs name name.length entry.1).map Prod.snd

def Parcel.Holds (parser : Parser) (parcel : Parcel) : Prop :=
  ∃ content, contentOf (contentKey parser) parcel.record.body = some (.str content) ∧
    Woven content (parcel.pieces.map Piece.text)

def HasContent (parser : Parser) (map : Map) : Prop := (getKey map parser.keyContent).isSome

structure Sound (parser : Parser) (group : StreamGroup) : Prop where
  woven : Woven group.buf (group.pieces.map Piece.text)
  seen : group.pieces ≠ [] → group.buf ≠ [] ∨ group.context ≠ []
  content : ∀ map ∈ group.context, HasContent parser map

theorem sound_create (parser : Parser) (name : Bytes) : Sound parser (.create name) :=
  ⟨.empty, by simp [StreamGroup.create], by simp [StreamGroup.create]⟩

variable {result : StreamGroup × List Parcel}

section

variable {parser : Parser} {group : StreamGroup} {line : Line}
variable {map : Map} {joined : StreamGroup} {index : Nat}

theorem HasContent.key (has : HasContent parser map) :
    ∃ entry ∈ map, keyIs (contentKey parser) (contentKey parser).length entry.1 = true := by
  unfold HasContent getKey at has
  cases name : parser.keyContent with
  | none => simp [name] at has
  | some name' =>
    simp only [name, List.findSome?_isSome_iff] at has
    obtain ⟨entry, member, found⟩ := has
    refine ⟨entry, member, ?_⟩
    obtain ⟨key, value⟩ := entry
    cases value with
    | other code => simp at found
    | str text =>
      simp only [contentKey, name, Option.getD_some]
      by_contra differs
      simp [differs] at found

theorem contentOf_repack (name buf : Bytes) (map : Map) (has : ∃ entry ∈ map, keyIs name name.length entry.1 = true) :
    contentOf name (repack name buf name.length map) = some (.str buf) := by
  induction map with
  | nil => simp at has
  | cons entry map ih =>
    obtain ⟨key, value⟩ := entry
    unfold repack
    split
    next found => simp [contentOf, found]
    next differs =>
      have later : ∃ entry ∈ map, keyIs name name.length entry.1 = true := by
        obtain ⟨entry, member, found⟩ := has
        rcases List.mem_cons.mp member with rfl | member
        · exact absurd found differs
        · exact ⟨entry, member, found⟩
      simpa [contentOf, differs] using ih later

theorem keyIs_self (name : Bytes) : keyIs name name.length (.str name) = true := by
  have same : ∀ size (text : Bytes), strncmpEq size text text = true := by
    intro size
    induction size with
    | zero => simp [strncmpEq]
    | succ size ih => simp [strncmpEq, ih]
  simp [keyIs, same]

/-! ### Flush -/

theorem breaklinePrepare_cases (parser : Parser) (group : StreamGroup) : breaklinePrepare parser group = group ∨
      breaklinePrepare parser group = { group with buf := group.buf ++ [newline] } := by
  unfold breaklinePrepare
  split
  · exact .inl rfl
  · exact .inr rfl

theorem Sound.breaklinePrepare (sound : Sound parser group) : Sound parser (breaklinePrepare parser group) := by
  rcases breaklinePrepare_cases parser group with same | broken
  · rw [same]
    exact sound
  · rw [broken]
    exact ⟨.lineBreak sound.woven, fun _ => .inl (by simp), sound.content⟩

structure Empties (parser : Parser) (group : StreamGroup) (result : StreamGroup × List Parcel) : Prop where
  name : result.1.name = group.name
  pieces : result.1.pieces = []
  buf : result.1.buf = []
  context : result.1.context = []
  sent : result.2.flatMap Parcel.pieces = group.pieces
  holds : ∀ parcel ∈ result.2, parcel.Holds parser
  groups : ∀ parcel ∈ result.2, parcel.group = group.name

theorem composeRecord_registered {rest : List Map} (context : group.context = map :: rest) :
    composeRecord parser group = (some (repack (contentKey parser) group.buf (contentKey parser).length map),
        { group with context := [], metadata := [] }) := by
  simp [composeRecord, context]

theorem composeRecord_raw (context : group.context = []) (filled : group.buf ≠ []) :
    composeRecord parser group = (some [(.str (contentKey parser), .str group.buf)], group) := by
  simp [composeRecord, context, filled]

theorem composeRecord_blank (context : group.context = []) (blank : group.buf = []) :
    composeRecord parser group = (none, group) := by
  simp [composeRecord, context, blank]

theorem Sound.flushStreamGroup (sound : Sound parser group) (hash : Value × Value → Nat) (now : Nat) :
    Empties parser group (flushStreamGroup hash parser now group) := by
  have prepared := sound.breaklinePrepare
  have same : (Multiline.breaklinePrepare parser group).pieces = group.pieces ∧
      (Multiline.breaklinePrepare parser group).name = group.name := by
    rcases breaklinePrepare_cases parser group with same | broken
    · rw [same]
      exact ⟨rfl, rfl⟩
    · rw [broken]
      exact ⟨rfl, rfl⟩
  unfold Multiline.flushStreamGroup
  generalize Multiline.breaklinePrepare parser group = ready at prepared same
  obtain ⟨pieces, name⟩ := same
  simp only
  cases context : ready.context with
  | cons map rest =>
    have content := contentOf_repack (contentKey parser) ready.buf map (prepared.content map (by simp [context])).key
    rw [composeRecord_registered context]
    exact ⟨name, rfl, rfl, rfl, by simp [pieces], by simpa [Parcel.Holds, content] using prepared.woven, by simp⟩
  | nil =>
    by_cases blank : ready.buf = []
    · have none : group.pieces = [] := by
        by_contra some
        rcases prepared.seen (pieces ▸ some) with filled | registered
        · exact filled blank
        · exact registered context
      rw [composeRecord_blank context blank]
      exact ⟨name, rfl, rfl, context, by simp [none], by simp, by simp⟩
    · have content : contentOf (contentKey parser) [(.str (contentKey parser), .str ready.buf)] =
          some (.str ready.buf) := by
        simp [contentOf, keyIs_self]
      rw [composeRecord_raw context blank]
      exact ⟨name, rfl, rfl, context, by simp [pieces], by simpa [Parcel.Holds, content] using prepared.woven,
        by simp⟩

theorem Empties.sound (empties : Empties parser group result) : Sound parser result.1 := by
  refine ⟨?_, ?_, ?_⟩
  · rw [empties.pieces, empties.buf]
    exact .empty
  · intro some
    exact absurd empties.pieces some
  · simp [empties.context]

/-! ### Appending -/

structure Takes (parser : Parser) (index : Nat) (line : Line) (group : StreamGroup)
    (result : StreamGroup × List Parcel) : Prop where
  name : result.1.name = group.name
  sound : Sound parser result.1
  pieces : result.2.flatMap Parcel.pieces ++ result.1.pieces =
    group.pieces ++ [{ index, text := line.content }]
  holds : ∀ parcel ∈ result.2, parcel.Holds parser
  groups : ∀ parcel ∈ result.2, parcel.group = group.name

def Line.Fits (parser : Parser) (line : Line) : Prop := ∀ map ∈ line.map, HasContent parser map

section

variable (sound : Sound parser joined) (name : joined.name = group.name)
  (pieces : joined.pieces = group.pieces ++ [{ index, text := line.content }])
include sound name pieces

theorem Takes.of_added : Takes parser index line group (joined, []) :=
  ⟨name, sound, by simpa using pieces, by simp, by simp⟩

theorem Takes.of_flushed (hash : Value × Value → Nat) (now : Nat) :
    Takes parser index line group (flushStreamGroup hash parser now joined) := by
  have empties := sound.flushStreamGroup hash now
  refine ⟨empties.name.trans name, empties.sound, ?_, empties.holds, ?_⟩
  · rw [empties.sent, empties.pieces, pieces, List.append_nil]
  · intro parcel member
    exact (empties.groups parcel member).trans name

end

theorem Sound.add (sound : Sound parser group) (index : Nat) (line : Line)
    (seen : line.content ≠ [] ∨ group.buf ≠ [] ∨ group.context ≠ []) : Sound parser (group.add index line) := by
  refine ⟨?_, ?_, sound.content⟩
  · simpa [StreamGroup.add] using sound.woven.text line.content
  · intro _
    rcases seen with content | buf | context
    · exact .inl (by simp [StreamGroup.add, content])
    · exact .inl (by simp [StreamGroup.add, buf])
    · exact .inr context

theorem Sound.registerContext (sound : Sound parser group) (fits : line.Fits parser) :
    Sound parser (registerContext line group) := by
  refine ⟨sound.woven, ?_, ?_⟩
  · intro some
    rcases sound.seen some with filled | registered
    · exact .inl filled
    · exact .inr (by simp [Multiline.registerContext, registered])
  · intro map member
    rcases List.mem_append.mp member with earlier | now
    · exact sound.content map earlier
    · exact fits map (by simpa using now)

theorem Sound.lineBreak (sound : Sound parser group) : Sound parser (group.cat [newline]) :=
  ⟨.lineBreak sound.woven, fun _ => .inl (by simp [StreamGroup.cat]), sound.content⟩

theorem breaklinePrepare_pieces (parser : Parser) (group : StreamGroup) :
    (breaklinePrepare parser group).pieces = group.pieces ∧ (breaklinePrepare parser group).name = group.name ∧
      (breaklinePrepare parser group).context = group.context ∧
      (group.buf ≠ [] → (breaklinePrepare parser group).buf ≠ []) := by
  rcases breaklinePrepare_cases parser group with same | broken
  · rw [same]
    exact ⟨rfl, rfl, rfl, id⟩
  · rw [broken]
    exact ⟨rfl, rfl, rfl, fun _ => by simp⟩

theorem Sound.concatenate (sound : Sound parser group) (fits : line.Fits parser) (hash : Value × Value → Nat)
    (now : Nat) (complete : Bool) (index : Nat)
    (seen : line.map.isSome ∨ line.content ≠ [] ∨ group.buf ≠ [] ∨ group.context ≠ []) :
    Takes parser index line group (concatenate hash parser now complete index line group) := by
  obtain ⟨registered, start, soundStart, name, pieces, visible⟩ : ∃ registered : StreamGroup,
      (if group.context = [] then Multiline.registerContext line group else group) = registered ∧
      Sound parser registered ∧ registered.name = group.name ∧ registered.pieces = group.pieces ∧
      (line.content ≠ [] ∨ registered.buf ≠ [] ∨ registered.context ≠ []) := by
    by_cases context : group.context = []
    · refine ⟨Multiline.registerContext line group, by simp [context], sound.registerContext fits, rfl, rfl, ?_⟩
      rcases seen with map | content | buf | registered
      · obtain ⟨map, isMap⟩ := Option.isSome_iff_exists.mp map
        exact .inr (.inr (by simp [Multiline.registerContext, isMap]))
      · exact .inl content
      · exact .inr (.inl buf)
      · exact absurd context registered
    · exact ⟨group, by simp [context], sound, rfl, rfl, .inr (.inr context)⟩
  obtain ⟨samePieces, sameName, sameContext, filled⟩ := breaklinePrepare_pieces parser registered
  have joined : Sound parser ((Multiline.breaklinePrepare parser registered).add index line) := by
    apply soundStart.breaklinePrepare.add
    rcases visible with content | buf | context
    · exact .inl content
    · exact .inr (.inl (filled buf))
    · exact .inr (.inr (sameContext ▸ context))
  have joinedPieces : ((Multiline.breaklinePrepare parser registered).add index line).pieces =
      group.pieces ++ [{ index, text := line.content }] := by
    simp [StreamGroup.add, samePieces, pieces]
  unfold Multiline.concatenate
  simp only [start]
  split
  · exact .of_flushed joined (sameName.trans name) joinedPieces hash now
  · exact .of_added joined (sameName.trans name) joinedPieces

theorem continueWith_pieces (rule : Rule) (index : Nat) (line : Line) (group : StreamGroup) :
    (continueWith rule index line group).name = group.name ∧
      (continueWith rule index line group).metadata = group.metadata ∧
      (continueWith rule index line group).pieces = group.pieces ++ [{ index, text := line.content }] := by
  unfold continueWith
  simp only [StreamGroup.add]
  split
  all_goals split
  all_goals exact ⟨rfl, rfl, rfl⟩

theorem Sound.continueWith (sound : Sound parser group) (rule : Rule) (index : Nat) (line : Line) :
    Sound parser (continueWith rule index line group) := by
  have soundStart : Sound parser
      (if group.buf = [] ∨ group.buf.getLast? = some newline then group else group.cat [newline]) := by
    split
    · exact sound
    · exact sound.lineBreak
  unfold Multiline.continueWith
  generalize (if group.buf = [] ∨ group.buf.getLast? = some newline then group else group.cat [newline]) = broken
    at soundStart ⊢
  by_cases blank : line.content = []
  · have added := soundStart.lineBreak.add index line (.inr (.inl (by simp [StreamGroup.cat])))
    simp only [blank, if_true]
    exact ⟨added.woven, added.seen, added.content⟩
  · have added := soundStart.add index line (.inl blank)
    simp only [blank, if_false]
    exact ⟨added.woven, added.seen, added.content⟩

/-- The line leaves a trace in the buffer or the context. Without a map and a content it
does so only where something is there already, or as a continuation. -/
def Line.Seen (parser : Parser) (group : StreamGroup) (line : Line) : Prop :=
  line.map.isSome ∨ line.content ≠ [] ∨
    match parser.kind with
    | .regex rules => (continuation rules group line.content).isSome
    | _ => group.buf ≠ [] ∨ group.context ≠ []

theorem tryFlushingBuffer_cases (hash : Value × Value → Nat) (parser : Parser) (now : Nat) (rules : List Rule)
    (group : StreamGroup) : tryFlushingBuffer hash parser now rules group = flushStreamGroup hash parser now group ∨
      tryFlushingBuffer hash parser now rules group = (group, []) := by
  unfold tryFlushingBuffer
  simp only
  split
  all_goals split
  · exact .inl rfl
  · exact .inr rfl
  · exact .inl rfl
  · exact .inr rfl

section

variable (sound : Sound parser group) (fits : line.Fits parser) (hash : Value × Value → Nat) (now : Nat)
include sound fits hash now

/-- A line that a rule takes goes into the text of its group once. -/
theorem Sound.ruleProcess (rules : List Rule) (index : Nat)
    (seen : line.map.isSome ∨ line.content ≠ [] ∨ (continuation rules group line.content).isSome)
    (processed : ruleProcess hash parser now rules index line group = some result) :
    Takes parser index line group result := by
  unfold Multiline.ruleProcess at processed
  cases follows : continuation rules group line.content with
  | some rule =>
    simp only [follows, Option.some.injEq] at processed
    subst processed
    have joined := sound.continueWith rule index line
    obtain ⟨name, _, pieces⟩ := continueWith_pieces rule index line group
    rcases tryFlushingBuffer_cases hash parser now rules (Multiline.continueWith rule index line group) with
      flushed | kept
    · rw [flushed]
      exact .of_flushed joined name pieces hash now
    · rw [kept]
      exact .of_added joined name pieces
  | none =>
    simp only [follows] at processed seen
    cases starts : tryStartState rules line.content with
    | none => simp [starts] at processed
    | some rule =>
      simp only [starts, Option.some.injEq] at processed
      subst processed
      have begun : ∀ before : StreamGroup, Sound parser before →
          Sound parser (Multiline.registerContext line ({ before with ruleToState := some rule }.add index line)) := by
        intro before sound
        have registered := sound.registerContext fits
        have added := registered.add index line (by
          rcases seen with map | content | never
          · obtain ⟨map, isMap⟩ := Option.isSome_iff_exists.mp map
            exact .inr (.inr (by simp [Multiline.registerContext, isMap]))
          · exact .inl content
          · simp at never)
        exact ⟨added.woven, added.seen, added.content⟩
      by_cases blank : group.buf = []
      · rw [if_pos blank]
        exact .of_added (begun group sound) rfl rfl
      · have empties := sound.flushStreamGroup hash now
        rw [if_neg blank]
        refine ⟨empties.name, begun _ empties.sound, ?_, empties.holds, empties.groups⟩
        simp [Multiline.registerContext, StreamGroup.add, empties.sent, empties.pieces]

theorem Sound.packageContent (index : Nat) (seen : line.Seen parser group)
    (processed : packageContent hash parser now index line group = some result) :
    Takes parser index line group result := by
  unfold Multiline.packageContent at processed
  obtain ⟨before, taken, rfl⟩ := Option.map_eq_some_iff.mp processed
  have takes : Takes parser index line group before := by
    unfold Line.Seen at seen
    cases kind : parser.kind with
    | regex rules =>
      simp only [kind] at taken seen
      exact sound.ruleProcess fits hash now rules index seen taken
    | endswith =>
      simp only [kind] at taken seen
      split at taken
      · cases taken
        exact sound.concatenate fits hash now _ index seen
      · cases taken
    | eq =>
      simp only [kind] at taken seen
      cases taken
      exact sound.concatenate fits hash now _ index seen
  exact ⟨takes.name, ⟨takes.sound.woven, takes.sound.seen, takes.sound.content⟩, takes.pieces, takes.holds,
    takes.groups⟩

end

end

end FluentBit.Multiline
