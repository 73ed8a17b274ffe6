import FluentBit.Multiline.HomeParser

/-! The groups of one name among the groups of a stream. The numbers of the appends are left
out: a stream that gets some of the lines counts them differently. -/

set_option autoImplicit false

namespace FluentBit.Multiline

open List Bool Option
open Ml

theorem strncmpEq_iff (left right : Bytes) (same : left.length = right.length) :
    strncmpEq right.length left right = true ↔ left.takeWhile (· != 0) = right.takeWhile (· != 0) := by
  induction left generalizing right with
  | nil =>
    obtain rfl : right = [] := length_eq_zero_iff.mp same.symm
    simp [strncmpEq]
  | cons byte left ih =>
    cases right with
    | nil => cases same
    | cons other right =>
      have rest := ih right (by simpa using same)
      by_cases equal : byte = other
      · subst equal
        by_cases stop : byte = 0
        · simp [strncmpEq, stop]
        · simp [strncmpEq, stop, rest]
      · by_cases stop : byte = 0
        · subst stop
          simp [strncmpEq, equal, Ne.symm equal]
        · by_cases ends : other = 0
          · simp [strncmpEq, stop, ends]
          · simp [strncmpEq, stop, ends, equal]

/-- What `flb_sds_cmp` looks at. -/
def nameKey (name : Bytes) : Nat × Bytes := (name.length, name.takeWhile (· != 0))

theorem sdsEq_iff (left right : Bytes) : sdsEq left right = true ↔ nameKey left = nameKey right := by
  unfold sdsEq nameKey
  by_cases same : left.length = right.length
  · simp [same, strncmpEq_iff left right same]
  · simp [same]

/-! ### Without the numbers -/

def StreamGroup.bare (group : StreamGroup) : StreamGroup := { group with pieces := [] }

def Parcel.bare (parcel : Parcel) : Parcel := { parcel with pieces := [] }

def bareResult (result : StreamGroup × List Parcel) : StreamGroup × List Parcel :=
  (result.1.bare, result.2.map Parcel.bare)

section

variable {hash : Value × Value → Nat} {parser : Parser} {now : Nat}

theorem breaklinePrepare_bare (group : StreamGroup) :
    breaklinePrepare parser group.bare = (breaklinePrepare parser group).bare := by
  unfold breaklinePrepare
  rw [show group.bare.buf = group.buf from rfl]
  by_cases ends : parser.keyContent.isSome ∨ group.buf = [] ∨ group.buf.getLast? = some newline
  · rw [if_pos ends, if_pos ends]
  · rw [if_neg ends, if_neg ends]
    rfl

theorem composeRecord_bare (group : StreamGroup) :
    composeRecord parser group.bare = ((composeRecord parser group).1, (composeRecord parser group).2.bare) := by
  cases context : group.context with
  | cons map rest =>
    rw [composeRecord_registered context, composeRecord_registered (show group.bare.context = map :: rest from context)]
    rfl
  | nil =>
    have same : group.bare.context = [] := context
    by_cases blank : group.buf = []
    · rw [composeRecord_blank context blank, composeRecord_blank same (show group.bare.buf = [] from blank)]
    · rw [composeRecord_raw context blank, composeRecord_raw same (show group.bare.buf ≠ [] from blank)]
      rfl

theorem flushStreamGroup_bare (group : StreamGroup) :
    bareResult (flushStreamGroup hash parser now group.bare) = bareResult (flushStreamGroup hash parser now group) := by
  unfold flushStreamGroup
  simp only [breaklinePrepare_bare, composeRecord_bare]
  cases (composeRecord parser (breaklinePrepare parser group)).1 with
  | none => rfl
  | some body => rfl

theorem tryFlushingBuffer_bare (rules : List Rule) (group : StreamGroup) :
    bareResult (tryFlushingBuffer hash parser now rules group.bare) =
      bareResult (tryFlushingBuffer hash parser now rules group) := by
  unfold tryFlushingBuffer
  simp only [show group.bare.ruleToState = group.ruleToState from rfl, show group.bare.buf = group.buf from rfl]
  simp only [apply_ite bareResult, flushStreamGroup_bare]
  rfl

theorem continueWith_bare (rule : Rule) (index other : Nat) (line : Line) (group : StreamGroup) :
    (continueWith rule index line group.bare).bare = (continueWith rule other line group).bare := by
  unfold continueWith
  simp only [show group.bare.buf = group.buf from rfl]
  by_cases ends : group.buf = [] ∨ group.buf.getLast? = some newline
  · by_cases empty : line.content = []
    · simp [ends, empty, StreamGroup.bare, StreamGroup.cat, StreamGroup.add]
    · simp [ends, empty, StreamGroup.bare, StreamGroup.add]
  · by_cases empty : line.content = []
    · simp [ends, empty, StreamGroup.bare, StreamGroup.cat, StreamGroup.add]
    · simp [ends, empty, StreamGroup.bare, StreamGroup.cat, StreamGroup.add]

theorem ruleProcess_bare (rules : List Rule) (index other : Nat) (line : Line) (group : StreamGroup) :
    (ruleProcess hash parser now rules index line group.bare).map bareResult =
      (ruleProcess hash parser now rules other line group).map bareResult := by
  unfold ruleProcess
  rw [show continuation rules group.bare line.content = continuation rules group line.content from rfl]
  cases continuation rules group line.content with
  | some rule =>
    simp only [map_some, Option.some.injEq]
    rw [← tryFlushingBuffer_bare, continueWith_bare rule index other, tryFlushingBuffer_bare]
  | none =>
    cases tryStartState rules line.content with
    | none => rfl
    | some rule =>
      have flushed : bareResult (if group.bare.buf = [] then (group.bare, [])
          else flushStreamGroup hash parser now group.bare) =
          bareResult (if group.buf = [] then (group, []) else flushStreamGroup hash parser now group) := by
        rw [show group.bare.buf = group.buf from rfl]
        by_cases blank : group.buf = []
        · rw [if_pos blank, if_pos blank]
          rfl
        · rw [if_neg blank, if_neg blank]
          exact flushStreamGroup_bare group
      obtain ⟨groups, parcels⟩ := Prod.mk.inj flushed
      simp only [map_some, Option.some.injEq]
      unfold bareResult
      apply Prod.ext
      · exact congrArg (fun (bare : StreamGroup) =>
          { bare with
            buf := bare.buf ++ line.content, ruleToState := some rule, time := line.time
            context := bare.context ++ line.map.toList }) groups
      · exact parcels

theorem concatenate_bare (complete : Bool) (index other : Nat) (line : Line) (group : StreamGroup) :
    bareResult (concatenate hash parser now complete index line group.bare) =
      bareResult (concatenate hash parser now complete other line group) := by
  have registered : (if group.bare.context = [] then registerContext line group.bare else group.bare) =
      (if group.context = [] then registerContext line group else group).bare := by
    rw [show group.bare.context = group.context from rfl]
    by_cases unregistered : group.context = []
    · rw [if_pos unregistered, if_pos unregistered]
      rfl
    · rw [if_neg unregistered, if_neg unregistered]
  unfold concatenate
  simp only [registered, breaklinePrepare_bare]
  generalize breaklinePrepare parser (if group.context = [] then registerContext line group else group) = prepared
  cases complete with
  | false => rfl
  | true =>
    simp only [if_true]
    rw [← flushStreamGroup_bare (prepared.bare.add index line), ← flushStreamGroup_bare (prepared.add other line)]
    rfl

theorem packageContent_bare (index other : Nat) (line : Line) (group : StreamGroup) :
    (packageContent hash parser now index line group.bare).map bareResult =
      (packageContent hash parser now other line group).map bareResult := by
  have labelled : ∀ left right : Option (StreamGroup × List Parcel), left.map bareResult = right.map bareResult →
      (left.map fun result =>
        ({ result.1 with metadata := result.1.metadata ++ line.metadata.toList }, result.2)).map bareResult =
      (right.map fun result =>
        ({ result.1 with metadata := result.1.metadata ++ line.metadata.toList }, result.2)).map bareResult := by
    intro left right same
    have more := congrArg (Option.map fun result : StreamGroup × List Parcel =>
      ({ result.1 with metadata := result.1.metadata ++ line.metadata.toList }, result.2)) same
    simp only [Option.map_map] at more ⊢
    exact more
  unfold packageContent
  apply labelled
  cases parser.kind with
  | regex rules => exact ruleProcess_bare rules index other line group
  | endswith =>
    simp only
    split
    · exact congrArg some (concatenate_bare _ index other line group)
    · rfl
  | eq => exact congrArg some (concatenate_bare _ index other line group)

end

/-! ### Names stay -/

section

variable {hash : Value × Value → Nat} {parser : Parser} {now : Nat}

def Named (name : Bytes) (result : StreamGroup × List Parcel) : Prop :=
  result.1.name = name ∧ ∀ parcel ∈ result.2, parcel.group = name

theorem breaklinePrepare_name (group : StreamGroup) : (breaklinePrepare parser group).name = group.name := by
  unfold breaklinePrepare
  split
  · rfl
  · rfl

theorem composeRecord_name (group : StreamGroup) : (composeRecord parser group).2.name = group.name := by
  unfold composeRecord
  split
  · rfl
  · split
    · rfl
    · rfl

theorem flushStreamGroup_named (group : StreamGroup) : Named group.name (flushStreamGroup hash parser now group) := by
  unfold flushStreamGroup
  constructor
  · exact (composeRecord_name _).trans (breaklinePrepare_name group)
  · intro parcel member
    obtain ⟨body, _, rfl⟩ := by simpa using member
    rfl

theorem tryFlushingBuffer_named (rules : List Rule) (group : StreamGroup) :
    Named group.name (tryFlushingBuffer hash parser now rules group) := by
  unfold tryFlushingBuffer
  simp only
  split
  · split
    · exact flushStreamGroup_named group
    · exact ⟨rfl, by simp⟩
  · split
    · exact flushStreamGroup_named group
    · exact ⟨rfl, by simp⟩

variable {group : StreamGroup} {result : StreamGroup × List Parcel} {index : Nat} {line : Line}

theorem ruleProcess_named {rules : List Rule}
    (processed : ruleProcess hash parser now rules index line group = some result) : Named group.name result := by
  unfold ruleProcess at processed
  split at processed
  next rule _ =>
    cases processed
    have named := @tryFlushingBuffer_named hash parser now rules (continueWith rule index line group)
    have name : (continueWith rule index line group).name = group.name := by
      unfold continueWith
      by_cases ends : group.buf = [] ∨ group.buf.getLast? = some newline
      · by_cases empty : line.content = []
        · simp [ends, empty, StreamGroup.cat, StreamGroup.add]
        · simp [ends, empty, StreamGroup.add]
      · by_cases empty : line.content = []
        · simp [ends, empty, StreamGroup.cat, StreamGroup.add]
        · simp [ends, empty, StreamGroup.cat, StreamGroup.add]
    rwa [name] at named
  · split at processed
    · cases processed
      by_cases blank : group.buf = []
      · simp only [if_pos blank]
        exact ⟨rfl, by simp⟩
      · simp only [if_neg blank]
        exact flushStreamGroup_named group
    · cases processed

theorem concatenate_named (complete : Bool) :
    Named group.name (concatenate hash parser now complete index line group) := by
  unfold concatenate
  have name : (breaklinePrepare parser (if group.context = [] then registerContext line group else group)).name =
      group.name := by
    rw [breaklinePrepare_name]
    split
    · rfl
    · rfl
  cases complete with
  | false => exact ⟨name, by simp⟩
  | true =>
    rw [← name]
    exact flushStreamGroup_named _

theorem packageContent_named (packaged : packageContent hash parser now index line group = some result) :
    Named group.name result := by
  unfold packageContent at packaged
  obtain ⟨processed, found, rfl⟩ := map_eq_some_iff.mp packaged
  have named : Named group.name processed := by
    cases kind : parser.kind with
    | regex rules =>
      rw [kind] at found
      exact ruleProcess_named found
    | endswith =>
      simp only [kind] at found
      split at found
      · cases found
        exact concatenate_named _
      · cases found
    | eq =>
      simp only [kind] at found
      cases found
      exact concatenate_named _
  exact named

end

/-! ### Shadows -/

variable {α : Type} {place : Nat}

theorem filter_findIdx (p : α → Bool) (list : List α) (found : list.findIdx? p = some place) :
    ∃ value rest, list[place]? = some value ∧ p value = true ∧ list.filter p = value :: rest ∧
      ∀ other, p other = true → (list.set place other).filter p = other :: rest := by
  induction list generalizing place with
  | nil => cases found
  | cons head tail ih =>
    rw [List.findIdx?_cons] at found
    by_cases here : p head = true
    · rw [if_pos here] at found
      cases found
      refine ⟨head, tail.filter p, rfl, here, filter_cons_of_pos here, ?_⟩
      intro other selected
      simp [selected]
    · rw [if_neg here] at found
      obtain ⟨later, there, rfl⟩ := map_eq_some_iff.mp found
      obtain ⟨value, rest, at_place, selected, filtered, replaced⟩ := ih there
      refine ⟨value, rest, by simpa using at_place, selected, ?_, ?_⟩
      · rwa [filter_cons_of_neg here]
      · intro other chosen
        rw [set_cons_succ, filter_cons_of_neg here, replaced other chosen]

theorem filter_set_of_neg (p : α → Bool) (list : List α) {value other : α} (here : list[place]? = some value)
    (left : p value = false) (right : p other = false) : (list.set place other).filter p = list.filter p := by
  induction list generalizing place with
  | nil => cases here
  | cons head tail ih =>
    cases place with
    | zero =>
      cases here
      simp [left, right]
    | succ place =>
      rw [set_cons_succ, filter_cons, filter_cons, ih (by simpa using here)]

def shadow (name : Bytes) (groups : List StreamGroup) : List StreamGroup :=
  (groups.filter fun group => sdsEq group.name name).map StreamGroup.bare

def parcelsFor (name : Bytes) (parcels : List Parcel) : List Parcel :=
  (parcels.filter fun parcel => sdsEq parcel.group name).map Parcel.bare

def Led (groups : List StreamGroup) : Prop := groups.head?.map StreamGroup.name = some []

def groupName (parser : Parser) (name : Option Bytes) : Bytes := if parser.grouped then name.getD [] else []

section

variable {parser : Parser} {groups wide left right : List StreamGroup} {name : Option Bytes} {target : Bytes}
  {place : Nat}

theorem Led.first (led : Led groups) : ∃ first rest, groups = first :: rest ∧ first.name = [] := by
  cases groups with
  | nil => cases led
  | cons first rest => exact ⟨first, rest, rfl, by simpa [Led] using led⟩

theorem streamGroupGet_led (led : Led groups) : streamGroupGet parser groups name =
      match groups.findIdx? fun group => sdsEq group.name (groupName parser name) with
      | some place => some (place, groups)
      | none => if maxGroups ≤ groups.length then none
        else some (groups.length, groups ++ [.create (groupName parser name)]) := by
  have default : (groups.findIdx? fun group => sdsEq group.name []) = some 0 := by
    obtain ⟨first, rest, rfl, nameless⟩ := led.first
    rw [List.findIdx?_cons, nameless]
    rfl
  unfold streamGroupGet groupName
  cases grouped : parser.grouped with
  | false => simp [default]
  | true =>
    cases name with
    | none => simp [default]
    | some name => rfl

theorem sdsEq_self (name : Bytes) : sdsEq name name = true := (sdsEq_iff name name).mpr rfl

theorem sdsEq_congr {first second : Bytes} (same : sdsEq first second = true) (name : Bytes) :
    sdsEq name first = sdsEq name second := by
  rw [Bool.eq_iff_iff, sdsEq_iff, sdsEq_iff, (sdsEq_iff first second).mp same]

theorem streamGroupGet_shadow (led : Led groups) (mine : sdsEq (groupName parser name) target = true)
    (got : streamGroupGet parser groups name = some (place, wide)) :
    ∃ group, wide[place]? = some group ∧ sdsEq group.name target = true ∧
      group.bare = (shadow target groups).head?.getD (.create (groupName parser name)) ∧
      wide.length = groups.length + (if shadow target groups = [] then 1 else 0) ∧
      ∀ other, sdsEq other.name target = true →
        shadow target (wide.set place other) = other.bare :: (shadow target groups).tail := by
  rw [streamGroupGet_led led] at got
  simp only [sdsEq_congr mine] at got
  cases found : groups.findIdx? fun group => sdsEq group.name target with
  | some index =>
    rw [found] at got
    cases got
    obtain ⟨group, rest, here, named, filtered, replaced⟩ := filter_findIdx _ groups found
    refine ⟨group, here, named, by simp [shadow, filtered], by simp [shadow, filtered], ?_⟩
    intro other chosen
    simp [shadow, filtered, replaced other chosen]
  | none =>
    rw [found] at got
    have absent : groups.filter (fun group => sdsEq group.name target) = [] := by
      rw [filter_eq_nil_iff]
      simpa using List.findIdx?_eq_none_iff.mp found
    simp only at got
    split at got
    · cases got
    · cases got
      refine ⟨.create (groupName parser name), by simp, mine, by simp [shadow, absent]; rfl, by simp [shadow, absent], ?_⟩
      intro other chosen
      simp [shadow, absent, chosen]

theorem streamGroupGet_apart (led : Led groups) (apart : sdsEq (groupName parser name) target = false)
    (got : streamGroupGet parser groups name = some (place, wide)) :
    ∃ group, wide[place]? = some group ∧ sdsEq group.name target = false ∧ shadow target wide = shadow target groups ∧
      ∀ other, sdsEq other.name target = false → shadow target (wide.set place other) = shadow target groups := by
  rw [streamGroupGet_led led] at got
  cases found : groups.findIdx? fun group => sdsEq group.name (groupName parser name) with
  | some index =>
    rw [found] at got
    cases got
    obtain ⟨group, rest, here, named, filtered, replaced⟩ := filter_findIdx _ groups found
    have different : sdsEq group.name target = false := by
      by_contra same
      have equal := (sdsEq_iff _ _).mp named
      rw [not_eq_false, sdsEq_iff, equal, ← sdsEq_iff, apart] at same
      cases same
    refine ⟨group, here, different, rfl, ?_⟩
    intro other chosen
    rw [shadow, filter_set_of_neg _ groups here different chosen]
    rfl
  | none =>
    rw [found] at got
    simp only at got
    split at got
    · cases got
    · cases got
      refine ⟨.create (groupName parser name), by simp, apart, ?_, ?_⟩
      · simp [shadow, StreamGroup.create, apart]
      · intro other chosen
        simp [shadow, chosen]

theorem Led.widened (led : Led groups) (widened : Widened groups wide) : Led wide := by
  obtain ⟨first, rest, rfl, nameless⟩ := led.first
  rcases widened with rfl | ⟨name, rfl⟩
  · exact led
  · simp [Led, nameless]

theorem Led.set (led : Led groups) {group other : StreamGroup} (here : groups[place]? = some group)
    (same : other.name = group.name) : Led (groups.set place other) := by
  obtain ⟨first, rest, rfl, nameless⟩ := led.first
  cases place with
  | zero =>
    cases here
    simp [Led, same, nameless]
  | succ place => simp [Led, nameless]

theorem length_of_widened (widened : Widened groups wide) : groups.length ≤ wide.length := by
  rcases widened with rfl | ⟨name, rfl⟩
  · exact Nat.le_refl _
  · simp

structure Alike (target : Bytes) (left right : List StreamGroup) : Prop where
  ledLeft : Led left
  ledRight : Led right
  fewer : right.length ≤ left.length
  shadows : shadow target left = shadow target right

theorem Alike.room (alike : Alike target left right) (mine : sdsEq (groupName parser name) target = true)
    (room : (streamGroupGet parser left name).isSome) : (streamGroupGet parser right name).isSome := by
  rw [streamGroupGet_led alike.ledLeft] at room
  rw [streamGroupGet_led alike.ledRight]
  simp only [sdsEq_congr mine] at room ⊢
  cases found : right.findIdx? fun group => sdsEq group.name target with
  | some index => rfl
  | none =>
    have absent : shadow target left = [] := by
      rw [alike.shadows, shadow, map_eq_nil_iff, filter_eq_nil_iff]
      simpa using List.findIdx?_eq_none_iff.mp found
    have missing : (left.findIdx? fun group => sdsEq group.name target) = none := by
      rw [List.findIdx?_eq_none_iff]
      rw [shadow, map_eq_nil_iff, filter_eq_nil_iff] at absent
      simpa using absent
    rw [missing] at room
    simp only at room ⊢
    split at room
    · cases room
    next limit =>
      rw [if_neg (Nat.not_le.mpr (Nat.lt_of_le_of_lt alike.fewer (Nat.not_le.mp limit)))]
      rfl

end

/-! ### What an append does to a shadow -/

section

variable {config : Config} {ins : Ins} {now index other : Nat} {input : Input} {target : Bytes}
  {groups left right : List StreamGroup}

theorem shadow_cons (group : StreamGroup) (rest : List StreamGroup) : shadow target (group :: rest) =
      if sdsEq group.name target then group.bare :: shadow target rest else shadow target rest := by
  unfold shadow
  rw [filter_cons]
  split
  · rfl
  · rfl

theorem parcelsFor_named {parcels : List Parcel} {name : Bytes} (named : ∀ parcel ∈ parcels, parcel.group = name) :
    parcelsFor target parcels = if sdsEq name target then parcels.map Parcel.bare else [] := by
  unfold parcelsFor
  split
  next same =>
    rw [filter_eq_self.mpr]
    intro parcel member
    rwa [named parcel member]
  next apart =>
    rw [map_eq_nil_iff, filter_eq_nil_iff]
    intro parcel member
    rwa [named parcel member]

theorem parcelsFor_append (first second : List Parcel) :
    parcelsFor target (first ++ second) = parcelsFor target first ++ parcelsFor target second := by
  simp [parcelsFor]

theorem shadow_flushGroups (groups : List StreamGroup) : shadow target (flushGroups config ins now groups).1 =
        ((shadow target groups).map fun group =>
          (bareResult (flushStreamGroup config.hash (config.parser ins) now group)).1) ∧
      parcelsFor target (flushGroups config ins now groups).2 = (shadow target groups).flatMap fun group =>
          (bareResult (flushStreamGroup config.hash (config.parser ins) now group)).2 := by
  induction groups with
  | nil => exact ⟨rfl, rfl⟩
  | cons group rest ih =>
    obtain ⟨name, parcels⟩ := @flushStreamGroup_named config.hash (config.parser ins) now group
    obtain ⟨later, sent⟩ := ih
    have same := @flushStreamGroup_bare config.hash (config.parser ins) now group
    unfold flushGroups at later sent ⊢
    simp only [map_cons, flatMap_cons] at later sent ⊢
    rw [shadow_cons, shadow_cons, name, later, parcelsFor_append, sent, parcelsFor_named parcels]
    cases mine : sdsEq group.name target with
    | false => simp
    | true =>
      simp only [if_true, map_cons, flatMap_cons, same]
      exact ⟨rfl, rfl⟩

theorem Led.flushGroups (led : Led groups) : Led (flushGroups config ins now groups).1 := by
  obtain ⟨first, rest, rfl, nameless⟩ := led.first
  have named := (@flushStreamGroup_named config.hash (config.parser ins) now first).1
  simp [Led, Multiline.flushGroups, named, nameless]

theorem Alike.flush (alike : Alike target left right) :
    Alike target (flushGroups config ins now left).1 (flushGroups config ins now right).1 ∧
      parcelsFor target (flushGroups config ins now left).2 =
        parcelsFor target (flushGroups config ins now right).2 := by
  obtain ⟨after, sent⟩ := @shadow_flushGroups config ins now target left
  obtain ⟨later, received⟩ := @shadow_flushGroups config ins now target right
  rw [sent, received, alike.shadows]
  refine ⟨⟨alike.ledLeft.flushGroups, alike.ledRight.flushGroups, ?_, ?_⟩, rfl⟩
  · simpa [Multiline.flushGroups] using alike.fewer
  · rw [after, later, alike.shadows]

theorem passGroup_named (group : StreamGroup) : Named group.name (passGroup config ins now index input group) := by
  cases input with
  | text tm buf => exact flushStreamGroup_named (group.add index _)
  | object tm metadata body => exact ⟨rfl, by simp [passGroup]⟩

theorem passGroup_bare (group : StreamGroup) : bareResult (passGroup config ins now index input group.bare) =
      bareResult (passGroup config ins now other input group) := by
  cases input with
  | text tm buf =>
    unfold passGroup
    simp only
    rw [← flushStreamGroup_bare (group.bare.add index _), ← flushStreamGroup_bare (group.add other _)]
    rfl
  | object tm metadata body => rfl

theorem Alike.pass (alike : Alike target left right) :
    Alike target (passGroups config ins now index input left).1 (passGroups config ins now other input right).1 ∧
      parcelsFor target (passGroups config ins now index input left).2 =
        parcelsFor target (passGroups config ins now other input right).2 := by
  obtain ⟨first, rest, rfl, nameless⟩ := alike.ledLeft.first
  obtain ⟨head, tail, rfl, unnamed⟩ := alike.ledRight.first
  obtain ⟨name, parcels⟩ := @passGroup_named config ins now index input first
  obtain ⟨same, pieces⟩ := @passGroup_named config ins now other input head
  have shadows := alike.shadows
  simp only [passGroups]
  rw [shadow_cons, shadow_cons, nameless, unnamed] at shadows
  rw [parcelsFor_named parcels, parcelsFor_named pieces, nameless, unnamed]
  have fewer := alike.fewer
  cases mine : sdsEq [] target with
  | false =>
    simp only [mine, false_eq_true, if_false] at shadows ⊢
    refine ⟨⟨by simp [Led, name, nameless], by simp [Led, same, unnamed], fewer, ?_⟩, trivial⟩
    rw [shadow_cons, shadow_cons, name, nameless, same, unnamed, mine]
    exact shadows
  | true =>
    simp only [mine, if_true] at shadows ⊢
    obtain ⟨bare, shadows⟩ := List.cons.inj shadows
    have passed : bareResult (passGroup config ins now index input first) =
        bareResult (passGroup config ins now other input head) := by
      rw [← @passGroup_bare config ins now 0 index input first, bare, passGroup_bare]
    obtain ⟨group, sent⟩ := Prod.mk.inj passed
    refine ⟨⟨by simp [Led, name, nameless], by simp [Led, same, unnamed], fewer, ?_⟩, sent⟩
    rw [shadow_cons, shadow_cons, name, nameless, same, unnamed, mine, group, shadows]

theorem Alike.settle (alike : Alike target left right) :
    Alike target (settle config ins now index input left).1 (settle config ins now other input right).1 ∧
      parcelsFor target (settle config ins now index input left).2 =
        parcelsFor target (settle config ins now other input right).2 := by
  obtain ⟨flushed, sent⟩ := @Alike.flush config ins now target left right alike
  obtain ⟨passed, more⟩ := @Alike.pass config ins now index other input target _ _ flushed
  unfold Multiline.settle
  refine ⟨passed, ?_⟩
  simp [parcelsFor_append, sent, more]

def groupOf (config : Config) (ins : Ins) (input : Input) (now : Nat) : Bytes :=
  match lineOf config ins input now with
  | none => []
  | some line => groupName (config.parser ins) line.group

def takes (config : Config) (ins : Ins) (input : Input) (now : Nat) (groups : List StreamGroup) : Bool :=
  match lineOf config ins input now with
  | none => false
  | some line =>
    match streamGroupGet (config.parser ins) groups line.group with
    | none => readsGroup (config.parser ins) line
    | some (place, wide) =>
      match wide[place]? with
      | none => true
      | some group => (packageContent config.hash (config.parser ins) now 0 line group).isSome

theorem packageContent_isSome {hash : Value × Value → Nat} {parser : Parser} {line : Line} {first second : StreamGroup}
    (same : first.bare = second.bare) : (packageContent hash parser now index line first).isSome =
      (packageContent hash parser now other line second).isSome := by
  have left := congrArg Option.isSome (@packageContent_bare hash parser now 0 index line first)
  have right := congrArg Option.isSome (@packageContent_bare hash parser now 0 other line second)
  simp only [isSome_map] at left right
  rw [← left, ← right, same]

theorem accepts_eq_takes {ml : Ml} {stream : StreamId} (alive : ml.crashed = false) (created : stream ∈ ml.created) :
    accepts config ml stream input now ins = takes config ins input now (ml.groupsOf ins stream) := by
  unfold accepts tryParser takes lineOf
  rw [if_neg (by simp [alive])]
  cases convert (config.parser ins) input with
  | none => rfl
  | some converted =>
    simp only [created, if_true, bind_some]
    unfold attempt
    cases selectLine (config.parser ins) input now converted with
    | none => rfl
    | some line =>
      simp only
      cases streamGroupGet (config.parser ins) (ml.groupsOf ins stream) line.group with
      | none =>
        cases readsGroup (config.parser ins) line with
        | _ => rfl
      | some found =>
        simp only
        cases found.2[found.1]? with
        | none => rfl
        | some group =>
          simp only
          have taken := @packageContent_isSome now (ml.appended stream).length 0 config.hash
            (config.parser ins) line group group rfl
          rw [← taken]
          cases packageContent config.hash (config.parser ins) now (ml.appended stream).length line group with
          | none => rfl
          | some result => rfl

theorem set_self {α : Type} {list : List α} {place : Nat} {value : α} (here : list[place]? = some value) :
    list.set place value = list := by
  obtain ⟨bound, equal⟩ := List.getElem?_eq_some_iff.mp here
  rw [← equal]
  exact set_getElem_self bound

/-- A line of the group does the same beside other groups. -/
theorem Alike.advance (alike : Alike target left right) (mine : sdsEq (groupOf config ins input now) target = true)
    (room : ∀ line, lineOf config ins input now = some line →
      (streamGroupGet (config.parser ins) left line.group).isSome) :
    Alike target (advance config ins now index input left).1 (advance config ins now other input right).1 ∧
      parcelsFor target (advance config ins now index input left).2 =
        parcelsFor target (advance config ins now other input right).2 ∧
      takes config ins input now left = takes config ins input now right := by
  rw [advance_eq, advance_eq, onLine, onLine]
  unfold takes
  unfold groupOf at mine
  cases made : lineOf config ins input now with
  | none =>
    obtain ⟨settled, sent⟩ := @Alike.settle config ins now index other input target _ _ alike
    exact ⟨settled, sent, rfl⟩
  | some line =>
    rw [made] at mine
    have found := room line made
    have same := alike.room mine found
    obtain ⟨⟨place, wide⟩, got⟩ := isSome_iff_exists.mp found
    obtain ⟨⟨spot, broad⟩, gained⟩ := isSome_iff_exists.mp same
    obtain ⟨group, here, named, bare, size, replaced⟩ := streamGroupGet_shadow alike.ledLeft mine got
    obtain ⟨twin, there, called, plain, count, exchanged⟩ := streamGroupGet_shadow alike.ledRight mine gained
    rw [alike.shadows] at bare size replaced
    have twins : group.bare = twin.bare := bare.trans plain.symm
    have ledWide := alike.ledLeft.widened (streamGroupGet_cases got).1
    have ledBroad := alike.ledRight.widened (streamGroupGet_cases gained).1
    have fewer : broad.length ≤ wide.length := by
      rw [size, count]
      exact Nat.add_le_add_right alike.fewer _
    -- Any two groups that are put in the places of the twins keep the sides alike.
    have placed : ∀ first second : StreamGroup, first.name = group.name → second.name = twin.name →
        first.bare = second.bare → Alike target (wide.set place first) (broad.set spot second) := by
      intro first second name label same
      refine ⟨ledWide.set here name, ledBroad.set there label, by simpa using fewer, ?_⟩
      rw [replaced first (by rwa [name]), exchanged second (by rwa [label]), same]
    have packaged : (packageContent config.hash (config.parser ins) now index line group).map bareResult =
        (packageContent config.hash (config.parser ins) now other line twin).map bareResult := by
      rw [← packageContent_bare 0, twins, packageContent_bare]
    have taken := @packageContent_isSome now 0 0 config.hash (config.parser ins) line group twin twins
    simp only [got, gained, here, there]
    cases left : packageContent config.hash (config.parser ins) now index line group with
    | none =>
      cases right : packageContent config.hash (config.parser ins) now other line twin with
      | some result => simp [left, right] at packaged
      | none =>
        have wideSelf : wide.set place group = wide := set_self here
        have broadSelf : broad.set spot twin = broad := set_self there
        have still := placed group twin rfl rfl twins
        rw [wideSelf, broadSelf] at still
        obtain ⟨settled, sent⟩ := @Alike.settle config ins now index other input target _ _ still
        exact ⟨settled, sent, taken⟩
    | some result =>
      cases right : packageContent config.hash (config.parser ins) now other line twin with
      | none => simp [left, right] at packaged
      | some outcome =>
        have same : bareResult result = bareResult outcome := by simpa [left, right] using packaged
        obtain ⟨groups, sent⟩ := Prod.mk.inj same
        obtain ⟨name, parcels⟩ := packageContent_named left
        obtain ⟨label, pieces⟩ := packageContent_named right
        refine ⟨placed result.1 outcome.1 name label groups, ?_, taken⟩
        simp only
        rw [parcelsFor_named parcels, parcelsFor_named pieces, named, called]
        exact sent

/-- A line of another group does nothing to the group. -/
theorem Alike.advance_apart (alike : Alike target left right)
    (apart : sdsEq (groupOf config ins input now) target = false) (taken : takes config ins input now left = true)
    (room : ∀ line, lineOf config ins input now = some line →
      (streamGroupGet (config.parser ins) left line.group).isSome) :
    Alike target (Multiline.advance config ins now index input left).1 right ∧
      parcelsFor target (Multiline.advance config ins now index input left).2 = [] := by
  rw [advance_eq, onLine]
  unfold takes at taken
  unfold groupOf at apart
  cases made : lineOf config ins input now with
  | none =>
    rw [made] at taken
    cases taken
  | some line =>
    rw [made] at apart taken
    obtain ⟨⟨place, wide⟩, got⟩ := isSome_iff_exists.mp (room line made)
    obtain ⟨group, here, different, still, replaced⟩ := streamGroupGet_apart alike.ledLeft apart got
    have widened := (streamGroupGet_cases got).1
    simp only [got, here] at taken ⊢
    rw [@packageContent_isSome now 0 index config.hash (config.parser ins) line group group rfl] at taken
    obtain ⟨result, packaged⟩ := isSome_iff_exists.mp taken
    obtain ⟨name, parcels⟩ := packageContent_named packaged
    simp only [packaged]
    constructor
    · refine ⟨(alike.ledLeft.widened widened).set here name, alike.ledRight, ?_, ?_⟩
      · rw [length_set]
        exact Nat.le_trans alike.fewer (length_of_widened widened)
      · rw [replaced result.1 (by rwa [name]), alike.shadows]
    · rw [parcelsFor_named parcels, different]
      rfl

end

end FluentBit.Multiline
