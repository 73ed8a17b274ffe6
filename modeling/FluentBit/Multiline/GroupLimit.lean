import FluentBit.Multiline.Shadow
import Mathlib.Data.List.Induction

/-! The groups of a stream: a group stays for ever, and there are not more than six of them. A line
of a further group gets no group, and a parser that looks at it follows a null pointer. -/

set_option autoImplicit false

namespace FluentBit.Multiline

open List Nat
open Ml

inductive Act where
  | append (input : Input) (now index : Nat)
  | flush (now : Nat)
  | pass (input : Input) (now index : Nat)

section

variable (config : Config) (ins : Ins)

def act (groups : List StreamGroup) : Act → Option (List StreamGroup)
  | .append input now index =>
    match convert (config.parser ins) input with
    | none => some groups
    | some converted =>
      match attempt config.hash (config.parser ins) input now index converted groups with
      | .rejected groups => some groups
      | .accepted groups _ => some groups
      | .crashed => none
  | .flush now => some (flushGroups config ins now groups).1
  | .pass input now index => some (passGroups config ins now index input groups).1

def acts (list : List Act) : Option (List StreamGroup) := list.foldlM (act config ins) [.create []]

def asked : Act → Option Bytes
  | .append input now _ =>
    (lineOf config ins input now).bind fun line => if (config.parser ins).grouped then line.group else none
  | _ => none

/-- Names, but for those that `flb_sds_cmp` takes for an earlier one. -/
def addName (known : List Bytes) (name : Bytes) : List Bytes :=
  if known.any fun other => sdsEq other name then known else known ++ [name]

def firstNames (names : List Bytes) : List Bytes := (names.foldl addName [[]]).take maxGroups

def Fitting (names : List Bytes) : Act → Prop
  | .append input now _ =>
    ∀ line name, lineOf config ins input now = some line → (config.parser ins).grouped = true →
      line.group = some name → readsGroup (config.parser ins) line = true →
      ∃ known ∈ firstNames (names ++ [name]), sdsEq known name = true
  | _ => True

def WithinLimit (list : List Act) : Prop :=
  ∀ before one after, list = before ++ one :: after →
    Fitting config ins (before.filterMap (asked config ins)) one

end

section

variable {names : List Bytes} {name : Bytes} {groups wide : List StreamGroup} {parser : Parser}

theorem foldl_addName_concat : (names ++ [name]).foldl addName [[]] = addName (names.foldl addName [[]]) name := by
  rw [foldl_append]
  rfl

theorem firstNames_concat : firstNames (names ++ [name]) =
      if (firstNames names).any (fun other => sdsEq other name) ∨ maxGroups ≤ (firstNames names).length then
        firstNames names else firstNames names ++ [name] := by
  unfold firstNames
  rw [foldl_addName_concat]
  generalize names.foldl addName [[]] = known
  by_cases full : maxGroups ≤ known.length
  · -- behind the first names nothing is seen
    have length : (known.take maxGroups).length = maxGroups := by
      rw [length_take]
      exact Nat.min_eq_left full
    rw [if_pos (.inr (Nat.le_of_eq length.symm))]
    unfold addName
    split
    · rfl
    · exact take_append_of_le_length full
  · have short : known.length ≤ maxGroups := Nat.le_of_lt (Nat.not_le.mp full)
    rw [take_of_length_le short]
    unfold addName
    by_cases there : known.any (fun other => sdsEq other name) = true
    · rw [if_pos there, if_pos (.inl there), take_of_length_le short]
    · rw [if_neg there, if_neg (not_or.mpr ⟨there, full⟩)]
      apply take_of_length_le
      rw [length_append]
      exact Nat.not_le.mp full

theorem streamGroupGet_names (grouped : parser.grouped = true) (held : groups.map StreamGroup.name = firstNames names) :
    (streamGroupGet parser groups (some name) = none ∧ firstNames (names ++ [name]) = firstNames names ∧
        ¬ ∃ known ∈ firstNames (names ++ [name]), sdsEq known name = true) ∨
      ∃ place wide, streamGroupGet parser groups (some name) = some (place, wide) ∧
        wide.map StreamGroup.name = firstNames (names ++ [name]) ∧
        ∃ known ∈ firstNames (names ++ [name]), sdsEq known name = true := by
  have length : (firstNames names).length = groups.length := by
    rw [← held, length_map]
  rw [firstNames_concat, length, ← held]
  unfold streamGroupGet
  simp only [grouped]
  cases found : groups.findIdx? fun group => sdsEq group.name name with
  | some place =>
    obtain ⟨bound, fits, -⟩ := List.findIdx?_eq_some_iff_getElem.mp found
    have member : groups[place].name ∈ groups.map StreamGroup.name := mem_map_of_mem (getElem_mem bound)
    have known : (groups.map StreamGroup.name).any (fun other => sdsEq other name) = true :=
      any_eq_true.mpr ⟨_, member, fits⟩
    simp only
    rw [if_pos (.inl known)]
    exact .inr ⟨place, groups, rfl, rfl, _, member, fits⟩
  | none =>
    have absent := List.findIdx?_eq_none_iff.mp found
    have unknown : ¬ ∃ known ∈ groups.map StreamGroup.name, sdsEq known name = true := by
      rintro ⟨known, member, fits⟩
      obtain ⟨group, inside, rfl⟩ := mem_map.mp member
      rw [absent group inside] at fits
      cases fits
    simp only
    by_cases full : maxGroups ≤ groups.length
    · rw [if_pos full, if_pos (.inr full)]
      exact .inl ⟨rfl, rfl, unknown⟩
    · rw [if_neg full, if_neg (not_or.mpr ⟨mt any_eq_true.mp unknown, full⟩)]
      exact .inr ⟨_, _, rfl, by simp [StreamGroup.create], name, by simp, sdsEq_self name⟩

end

/-! ### Steps -/

section

variable {config : Config} {ins : Ins} {names : List Bytes} {groups : List StreamGroup}

theorem act_append_eq (input : Input) (now index : Nat) : act config ins groups (.append input now index) =
      onLine some (fun groups _ => some groups) none config ins input now index groups :=
  onLine_eq _ _ _ index groups

theorem names_set {place : Nat} {group other : StreamGroup} (here : groups[place]? = some group)
    (same : other.name = group.name) : (groups.set place other).map StreamGroup.name = groups.map StreamGroup.name := by
  rw [map_set, same]
  exact set_self (by rw [List.getElem?_map, here, Option.map_some])

theorem packaged_names {place index : Nat} {line : Line} {input : Input} {now : Nat} {wide : List StreamGroup}
    (made : lineOf config ins input now = some line) (opened : groups ≠ [])
    (got : streamGroupGet (config.parser ins) groups line.group = some (place, wide)) :
    ∃ after, act config ins groups (.append input now index) = some after ∧
      after.map StreamGroup.name = wide.map StreamGroup.name := by
  rw [act_append_eq, onLine, made]
  simp only [got]
  have bound := (streamGroupGet_cases got).2 opened
  have here := List.getElem?_eq_getElem bound
  generalize wide[place] = group at here
  simp only [here]
  cases packaged : packageContent config.hash (config.parser ins) now index line group with
  | none => exact ⟨wide, rfl, rfl⟩
  | some result => exact ⟨_, rfl, names_set here (packageContent_named packaged).1⟩

theorem firstNames_ne_nil : firstNames names ≠ [] := by
  induction names using List.reverseRecOn with
  | nil => exact cons_ne_nil _ _
  | append_singleton names name ih =>
    rw [firstNames_concat]
    split
    · exact ih
    · exact append_ne_nil_of_left_ne_nil ih _

theorem act_cases (held : groups.map StreamGroup.name = firstNames names) (one : Act) :
    (act config ins groups one = none ∧ ¬ Fitting config ins names one) ∨
      ∃ after, act config ins groups one = some after ∧
        after.map StreamGroup.name = firstNames (names ++ (asked config ins one).toList) ∧
        Fitting config ins names one := by
  have opened : groups ≠ [] := by
    intro empty
    rw [empty] at held
    exact firstNames_ne_nil held.symm
  cases one with
  | append input now index =>
    cases made : lineOf config ins input now with
    | none =>
      refine .inr ⟨groups, by rw [act_append_eq, onLine, made], by simpa [asked, made] using held, ?_⟩
      intro line name other
      rw [made] at other
      cases other
    | some line =>
      by_cases named : ∃ name, (config.parser ins).grouped = true ∧ line.group = some name
      · obtain ⟨name, grouped, called⟩ := named
        have looked : asked config ins (.append input now index) = some name := by
          simp [asked, made, grouped, called]
        rw [looked]
        have fitting : Fitting config ins names (.append input now index) ↔
            (readsGroup (config.parser ins) line = true →
              ∃ known ∈ firstNames (names ++ [name]), sdsEq known name = true) := by
          constructor
          · intro fits
            exact fits line name made grouped called
          · intro known line name same _ also
            cases made.symm.trans same
            cases called.symm.trans also
            exact known
        rw [fitting]
        rcases @streamGroupGet_names names name groups (config.parser ins) grouped held with ⟨full, same, unknown⟩ | ⟨place, wide, got, wideNames, known⟩
        · have result : act config ins groups (.append input now index) =
              if readsGroup (config.parser ins) line then none else some groups := by
            rw [act_append_eq, onLine, made]
            simp [called, full]
          rw [result]
          cases reads : readsGroup (config.parser ins) line with
          | true => exact .inl ⟨rfl, fun fits => unknown (fits rfl)⟩
          | false => exact .inr ⟨groups, rfl, held.trans same.symm, fun impossible => by cases impossible⟩
        · rw [← called] at got
          obtain ⟨after, acted, afterNames⟩ := @packaged_names config ins groups place index line input now wide
            made opened got
          exact .inr ⟨after, acted, afterNames.trans wideNames, fun _ => known⟩
      · -- the default group
        have default : streamGroupGet (config.parser ins) groups line.group = some (0, groups) := by
          unfold streamGroupGet
          split
          next name grouped called => exact absurd ⟨name, grouped, called⟩ named
          · rfl
        have looked : asked config ins (.append input now index) = none := by
          simp only [asked, made, Option.bind_some, ite_eq_right_iff]
          intro grouped
          cases called : line.group with
          | none => rfl
          | some name => exact absurd ⟨name, grouped, called⟩ named
        obtain ⟨after, acted, afterNames⟩ := @packaged_names config ins groups 0 index line input now groups
          made opened default
        rw [looked]
        refine .inr ⟨after, acted, by simpa using afterNames.trans held, ?_⟩
        intro other name same grouped called
        rw [made] at same
        cases same
        exact absurd ⟨name, grouped, called⟩ named
  | flush now =>
    refine .inr ⟨_, rfl, ?_, trivial⟩
    have kept : (flushGroups config ins now groups).1.map StreamGroup.name = groups.map StreamGroup.name := by
      unfold flushGroups
      rw [map_map]
      exact map_congr_left fun group _ => (flushStreamGroup_named group).1
    simpa [asked] using kept.trans held
  | pass input now index =>
    refine .inr ⟨_, rfl, ?_, trivial⟩
    have kept : (passGroups config ins now index input groups).1.map StreamGroup.name =
        groups.map StreamGroup.name := by
      cases groups with
      | nil => rfl
      | cons group rest =>
        cases input with
        | text tm buf => exact congrArg (· :: _) (flushStreamGroup_named _).1
        | object tm metadata body => rfl
    simpa [asked] using kept.trans held

theorem withinLimit_concat (list : List Act) (one : Act) : WithinLimit config ins (list ++ [one]) ↔
      WithinLimit config ins list ∧ Fitting config ins (list.filterMap (asked config ins)) one := by
  constructor
  · intro within
    constructor
    · intro before other after same
      exact within before other (after ++ [one]) (by rw [same, append_assoc, cons_append])
    · exact within list one [] rfl
  · rintro ⟨within, fits⟩ before other after same
    rcases eq_nil_or_concat after with rfl | ⟨rest, last, rfl⟩
    · obtain ⟨rfl, here⟩ := append_inj' same rfl
      cases here
      exact fits
    · rw [concat_eq_append, ← cons_append, ← append_assoc] at same
      obtain ⟨rfl, -⟩ := append_inj' same rfl
      exact within before other rest rfl

theorem acts_concat (list : List Act) (one : Act) :
    acts config ins (list ++ [one]) = (acts config ins list).bind fun groups => act config ins groups one := by
  unfold acts
  rw [foldlM_append]
  cases list.foldlM (act config ins) [.create []] with
  | none => rfl
  | some groups => simp [List.foldlM]

theorem acts_cases (config : Config) (ins : Ins) (list : List Act) :
    (acts config ins list = none ∧ ¬ WithinLimit config ins list) ∨ ∃ groups, acts config ins list = some groups ∧
        groups.map StreamGroup.name = firstNames (list.filterMap (asked config ins)) ∧ WithinLimit config ins list := by
  induction list using List.reverseRecOn with
  | nil =>
    refine .inr ⟨_, rfl, rfl, ?_⟩
    intro before one after same
    cases before with
    | nil => cases same
    | cons head before => cases same
  | append_singleton list one ih =>
    rw [acts_concat, withinLimit_concat]
    rcases ih with ⟨dead, outside⟩ | ⟨groups, run, held, within⟩
    · rw [dead]
      exact .inl ⟨rfl, fun both => outside both.1⟩
    · rw [run, Option.bind_some]
      rcases act_cases held one with ⟨dead, unfit⟩ | ⟨after, acted, names, fits⟩
      · exact .inl ⟨dead, fun both => unfit both.2⟩
      · refine .inr ⟨after, acted, ?_, within, fits⟩
        rw [names, filterMap_append]
        cases looked : asked config ins one with
        | none | some name => simp [looked]

/-- Every group pointer that is used on a stream is one of a group exactly when the lines whose
groups are looked at have no more than the six first group values, the default one included. -/
theorem acts_isSome_iff (config : Config) (ins : Ins) (list : List Act) :
    (acts config ins list).isSome = true ↔ WithinLimit config ins list := by
  rcases acts_cases config ins list with ⟨dead, outside⟩ | ⟨groups, run, -, within⟩
  · simp [dead, outside]
  · simp [run, within]

end

/-! ### The engine -/

section

variable {config : Config} {ml : Ml} {ins : Ins} {stream : StreamId} {input : Input} {now : Nat}

/-- The groups of the streams come from acts, and so does a null pointer that is followed, unless
there are no parsers. -/
structure Projected (config : Config) (ml : Ml) : Prop where
  streams : ∀ ins, ∀ stream ∈ ml.created, ∃ list, acts config ins list = some (ml.groupsOf ins stream)
  crash : ml.crashed = true → (∃ ins list, acts config ins list = none) ∨ config.groups = [] ∨ [] ∈ config.groups

theorem Projected.nonempty (projected : Projected config ml) (created : stream ∈ ml.created) :
    ml.groupsOf ins stream ≠ [] := by
  obtain ⟨list, run⟩ := projected.streams ins stream created
  rcases acts_cases config ins list with ⟨dead, -⟩ | ⟨groups, same, held, -⟩
  · rw [run] at dead
    cases dead
  · cases run.symm.trans same
    intro empty
    rw [empty] at held
    exact firstNames_ne_nil held.symm

theorem Projected.deliver (projected : Projected config ml) {groups : List StreamGroup} {parcels : List Parcel}
    (made : ∃ list, acts config ins list = some groups) : Projected config (ml.deliver ins stream groups parcels) := by
  refine ⟨?_, projected.crash⟩
  intro other target created
  by_cases same : other = ins ∧ target = stream
  · obtain ⟨rfl, rfl⟩ := same
    rwa [groupsOf_deliver_self]
  · rw [groupsOf_deliver_of_ne (not_and_or.mp same)]
    exact projected.streams other target created

theorem Projected.act (projected : Projected config ml) (created : stream ∈ ml.created) (one : Act) :
    ∃ list, acts config ins list = Multiline.act config ins (ml.groupsOf ins stream) one := by
  obtain ⟨list, run⟩ := projected.streams ins stream created
  exact ⟨list ++ [one], by rw [acts_concat, run, Option.bind_some]⟩

theorem Projected.tryParser (projected : Projected config ml) :
    Projected config (ml.tryParser config ins stream input now).2 := by
  unfold Ml.tryParser
  split
  · exact projected
  · cases converted : convert (config.parser ins) input with
    | none => exact projected
    | some conv =>
      simp only
      split
      next created =>
        obtain ⟨list, run⟩ := @Projected.act config ml ins stream projected created
          (.append input now (ml.appended stream).length)
        unfold Multiline.act at run
        simp only [converted] at run
        cases tried : attempt config.hash (config.parser ins) input now (ml.appended stream).length conv
            (ml.groupsOf ins stream) with
        | rejected groups | accepted groups parcels => exact projected.deliver ⟨list, by rw [run, tried]⟩
        | crashed => exact ⟨projected.streams, fun _ => .inl ⟨ins, list, by rw [run, tried]⟩⟩
      · exact projected

theorem Projected.flushParserInstance (projected : Projected config ml) :
    Projected config (ml.flushParserInstance config ins stream now) := by
  apply (@flushParserInstance_induction config ml ins stream now (Projected config) projected _).1
  intro state target created _ holds
  obtain ⟨list, run⟩ := @Projected.act config state ins target holds created (.flush now)
  unfold Ml.flushStream
  refine holds.deliver ⟨list, run.trans ?_⟩
  simp [Multiline.act, flushGroups]

theorem Projected.lruLoop (groups : List (List Ins)) (index : Nat) {pass : Pass} (projected : Projected config pass.ml) :
    Projected config (Ml.lruLoop config stream input now index groups pass).ml := by
  induction groups generalizing index pass with
  | nil => exact projected
  | cons head rest ih =>
    unfold Ml.lruLoop
    split
    · exact ih (index + 1) projected
    next last _ =>
      split
      · simp only
        split
        · exact projected.tryParser
        · exact ih (index + 1) projected.tryParser.flushParserInstance
      · split
        · exact ih (index + 1) projected
        · exact ih (index + 1) projected

theorem lruLoop_group (groups : List (List Ins)) (index : Nat) (pass : Pass) :
    (Ml.lruLoop config stream input now index groups pass).group = pass.group ∨
      (Ml.lruLoop config stream input now index groups pass).group < index + groups.length := by
  induction groups generalizing index pass with
  | nil => exact .inl rfl
  | cons head rest ih =>
    have later : ∀ after : Pass, after.group = index →
        (Ml.lruLoop config stream input now (index + 1) rest after).group < index + (head :: rest).length := by
      intro after same
      rw [length_cons]
      rcases ih (index + 1) after with stays | moves
      · omega
      · omega
    unfold Ml.lruLoop
    refine .inr ?_
    split
    · exact later _ rfl
    next last _ =>
      split
      · simp only
        split
        · exact Nat.lt_add_of_pos_right (succ_pos _)
        · exact later _ rfl
      · split
        · exact later _ rfl
        · exact later _ rfl

theorem Projected.parserLoop (lru : Option Ins) (rest : List Ins) (projected : Projected config ml) :
    Projected config (ml.parserLoop config stream input now lru rest).2 := by
  induction rest generalizing ml with
  | nil => exact projected
  | cons ins rest ih =>
    unfold Ml.parserLoop
    split
    · exact ih projected
    · simp only
      split
      · exact projected.tryParser
      · exact ih projected.tryParser

theorem Projected.passOn {lru : Option Ins} {parsers : List Ins} (projected : Projected config ml)
    (equipped : parsers = [] → config.groups = [] ∨ [] ∈ config.groups) :
    Projected config (ml.passOn config stream input now lru parsers) := by
  have flushed : Projected config (ml.flushLast config stream now lru) := by
    unfold flushLast
    split
    · exact projected.flushParserInstance
    · exact projected
  unfold Ml.passOn
  cases chosen : lru.or parsers.head? with
  | none =>
    have absent : parsers = [] := List.head?_eq_none_iff.mp (Option.or_eq_none_iff.mp chosen).2
    exact ⟨flushed.streams, fun _ => .inr (equipped absent)⟩
  | some ins =>
    simp only
    have again := @Projected.flushParserInstance config _ ins stream now flushed
    generalize (ml.flushLast config stream now lru).flushParserInstance config ins stream now = after at again ⊢
    split
    next created =>
      obtain ⟨list, run⟩ := @Projected.act config after ins stream again created
        (.pass input now (ml.appended stream).length)
      have opened := @Projected.nonempty config after ins stream again created
      cases input with
      | text tm buf =>
        unfold flushText
        cases groups : after.groupsOf ins stream with
        | nil => exact absurd groups opened
        | cons group rest =>
          rw [groups] at run
          exact again.deliver ⟨list, run⟩
      | object tm metadata body =>
        unfold flushObject
        cases groups : after.groupsOf ins stream with
        | nil => exact absurd groups opened
        | cons group rest =>
          rw [groups] at run
          exact again.deliver ⟨list, run⟩
    · exact again

theorem Projected.append (projected : Projected config ml) : Projected config (ml.append config stream input now) := by
  have first := @Projected.lruLoop config stream input now config.groups 0
    { processed := false, group := 0, lru := none, ml } projected
  have inside := @lruLoop_group config stream input now config.groups 0 { processed := false, group := 0, lru := none, ml }
  unfold Ml.append
  generalize Ml.lruLoop config stream input now 0 config.groups { processed := false, group := 0, lru := none, ml } = pass
    at first inside ⊢
  have second := @Projected.parserLoop config pass.ml stream input now pass.lru (config.groups.getD pass.group []) first
  simp only
  generalize pass.ml.parserLoop config stream input now pass.lru (config.groups.getD pass.group []) = tried at second ⊢
  cases tried.1 with
  | some ins => exact ⟨second.streams, second.crash⟩
  | none =>
    simp only
    split
    · exact ⟨second.streams, second.crash⟩
    · have passed := @Projected.passOn config tried.2 stream input now pass.lru (config.groups.getD pass.group []) second
        (by
          intro empty
          cases groups : config.groups with
          | nil => exact .inl rfl
          | cons head rest =>
            rw [groups] at inside empty
            have bound : pass.group < (head :: rest).length := by
              rcases inside with zero | bound
              · rw [zero]
                exact succ_pos _
              · rwa [Nat.zero_add] at bound
            rw [getD_eq_getElem?_getD, List.getElem?_eq_getElem bound, Option.getD_some] at empty
            exact .inr (empty ▸ getElem_mem bound))
      exact ⟨passed.streams, passed.crash⟩

theorem Projected.streamCreate (projected : Projected config ml) : Projected config (ml.streamCreate stream) := by
  unfold Ml.streamCreate
  split
  · exact projected
  · refine ⟨?_, projected.crash⟩
    intro ins target created
    by_cases same : target = stream
    · subst same
      exact ⟨[], by simp [acts]⟩
    · have earlier : target ∈ ml.created := by simpa [same] using created
      simpa [same] using projected.streams ins target earlier

theorem Projected.flushPending (projected : Projected config ml) : Projected config (ml.flushPending config now) := by
  have loop : ∀ (list : List Ins) (state : Ml), Projected config state →
      Projected config (list.foldl (fun ml ins => ml.flushParserInstance config ins 0 now) state) := by
    intro list
    induction list with
    | nil => exact fun state holds => holds
    | cons ins list ih => exact fun state holds => ih _ holds.flushParserInstance
  exact loop _ ml projected

theorem Projected.step (projected : Projected config ml) (event : Event) : Projected config (step config event ml) := by
  unfold Multiline.step
  split
  · exact projected
  · cases event with
    | streamCreate stream => exact projected.streamCreate
    | append stream input now => exact projected.append
    | flushPending now => exact projected.flushPending

theorem outside_of_crashed (equipped : config.groups ≠ [] ∧ [] ∉ config.groups) (events : List Event)
    (crashed : (Runs.after (Multiline.step config) .initial events).crashed = true) :
    ∃ ins list, ¬ WithinLimit config ins list ∧ acts config ins list = none := by
  have projected : Projected config (Runs.after (Multiline.step config) .initial events) := by
    apply (Runs.reached (Multiline.step config) .initial events).invariant (Projected config)
    · constructor
      · intro ins stream created
        cases created
      · intro dead
        cases dead
    · exact fun state event holds _ => holds.step event
  rcases projected.crash crashed with ⟨ins, list, dead⟩ | none | empty
  · refine ⟨ins, list, ?_, dead⟩
    rw [← acts_isSome_iff, dead]
    exact Bool.false_ne_true
  · exact absurd none equipped.1
  · exact absurd empty equipped.2

end

def perGroup : Config :=
  { groups := [[0]], hash := fun _ => 0, distinct := nodup_single
    parser := fun _ =>
      { kind := .endswith, matchStr := [46], negate := false, keyContent := some [108], keyPattern := none
        keyGroup := some [103], grouped := true, parser := none } }

def lineIn (group : UInt8) : Input := .object 1 [] [(.str [108], .str [46]), (.str [103], .str [group])]

/-- With the default group there is room for five group values. -/
theorem sixth_group_missing :
    (acts perGroup 0 ([97, 98, 99, 100, 101].map fun group => .append (lineIn group) 1 0)).isSome = true ∧
      acts perGroup 0 ([97, 98, 99, 100, 101, 102].map fun group => .append (lineIn group) 1 0) = none ∧
      (Runs.after (step perGroup) .initial
        (.streamCreate 1 :: [97, 98, 99, 100, 101, 102].map fun group => .append 1 (lineIn group) 1)).crashed = true :=
  ⟨by decide, Option.isNone_iff_eq_none.mp (by decide), by decide⟩

end FluentBit.Multiline
