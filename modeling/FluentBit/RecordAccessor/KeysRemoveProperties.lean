import FluentBit.Foundation.Pruning
import FluentBit.RecordAccessor.KeysRemove
import FluentBit.RecordAccessor.LookupProperties

/-! The removal of keys against pruning. Of the patterns that start from one key of the map only the
first is applied, so that it has to lead to a key, and all the others to keys at or below it. -/

set_option autoImplicit false

namespace FluentBit.RecordAccessor

open List Nat
open Msgpack

/-! ### One match -/

def ofItem (place : List Position) : Bool :=
  match place.getLast? with
  | some (.item _) => true
  | _ => false

/-- What a match takes below a place: the entry with its key, or every item if its key is `NULL`. -/
def hit (matchKey : Option (List Position)) (place below : List Position) : Bool :=
  match matchKey with
  | some target => decide (place ++ below = target)
  | none => ofItem below

section

variable (matchKey : Option (List Position)) (place : List Position)
include matchKey place

theorem hit_cons (position : Position) {below : List Position} (some : below ≠ []) :
    hit matchKey (place ++ [position]) below = hit matchKey place (position :: below) := by
  cases matchKey with
  | some target => simp [hit]
  | none =>
    cases below with
    | nil => exact absurd rfl some
    | cons next later => simp [hit, ofItem]

theorem prune_hit (position : Position) (object : Object) : prune (hit matchKey (place ++ [position])) object =
      prune (fun below => hit matchKey place (position :: below)) object := by
  apply prune_congr
  · intro below some there
    rw [hit_cons matchKey place position some] at there
    exact ⟨below, some, prefix_rfl, there⟩
  · intro below some there
    simp only [← hit_cons matchKey place position some] at there
    exact ⟨below, some, prefix_rfl, there⟩

theorem hit_entry (i : Nat) : hit matchKey place [.entry i] = true ↔ matchKey = some (place ++ [.entry i]) := by
  cases matchKey with
  | some target => simp [hit, eq_comm]
  | none => simp [hit, ofItem]

end

def Keyed (matchKey : Option (List Position)) : Prop := ∀ front i, matchKey ≠ some (front ++ [.item i])

theorem hit_item {matchKey : Option (List Position)} (keyed : Keyed matchKey) (place : List Position) (i : Nat) :
    hit matchKey place [.item i] = true ↔ matchKey = none := by
  cases matchKey with
  | some target => simpa [hit, eq_comm] using keyed place i
  | none => simp [hit, ofItem]

mutual

variable {matchKey : Option (List Position)}

theorem accessorSubPack_eq (keyed : Keyed matchKey) (key : Option Object) (place : List Position) : ∀ val,
    accessorSubPack matchKey key place val =
      if matchKey = key.map fun _ => place then none else some (packKey key ++ packWide (prune (hit matchKey place) val))
  | .map entries => by
      rw [accessorSubPack, subPackEntries_eq keyed place 0 entries]
      simp [prune, packWide, mapHeader]
  | .array items => by
      rw [accessorSubPack, subPackItems_eq keyed place 0 items]
      simp [prune, packWide, arrayHeader]
  | .nil | .boolean _ | .positive _ | .negative _ | .float32 _ | .float64 _ | .str _ | .bin _ | .ext _ _ => by
      simp [accessorSubPack, prune, packWide]

theorem subPackEntries_eq (keyed : Keyed matchKey) (place : List Position) :
    ∀ i entries, subPackEntries matchKey place i entries = let left := pruneEntries (hit matchKey place) i entries
      (left.length, packWideEntries left)
  | _, [] => rfl
  | i, (key, value) :: entries => by
      have here := accessorSubPack_eq keyed (some key) (place ++ [.entry i]) value
      have later := subPackEntries_eq keyed place (i + 1) entries
      rw [subPackEntries, here, later, pruneEntries, prune_hit]
      by_cases same : matchKey = some (place ++ [.entry i])
      · simp [same, hit, counted]
      · have stays := (hit_entry matchKey place i).not.mpr same
        simp [same, stays, counted, packWideEntries, packKey]

theorem subPackItems_eq (keyed : Keyed matchKey) (place : List Position) :
    ∀ i items, subPackItems matchKey place i items = let left := pruneItems (hit matchKey place) i items
      (left.length, packWideItems left)
  | _, [] => rfl
  | i, item :: items => by
      have here := accessorSubPack_eq keyed none (place ++ [.item i]) item
      have later := subPackItems_eq keyed place (i + 1) items
      rw [subPackItems, here, later, pruneItems, prune_hit]
      by_cases null : matchKey = none
      · simp [null, hit, ofItem, counted]
      · have stays := (hit_item keyed place i).not.mpr null
        simp [null, stays, counted, packWideItems, packKey]

end

def taken (table : List KvPair) : List Position → Bool
  | .entry i :: below =>
    match accessorKeyFindMatch table i with
    | none => false
    | some pair => hit pair.outKey [.entry i] below
  | _ => false

variable {subkeys : List Subentry}

theorem keyAt_some {place other : List Position} (given : keyAt place subkeys = some other) :
    other = place ∧ ∃ init name, subkeys = init ++ [.str name] := by
  unfold keyAt at given
  split at given
  next name ends =>
    obtain ⟨init, split⟩ := List.getLast?_eq_some_iff.mp ends
    exact ⟨(Option.some.inj given).symm, init, name, split⟩
  · cases given

theorem keyAt_keyed {object target : Object} {lead positions : List Position}
    (located : locate (subkeys.map Subentry.step) object = some (positions, target)) :
    Keyed (keyAt (lead ++ positions) subkeys) := by
  intro front i given
  obtain ⟨place, init, name, rfl⟩ := keyAt_some given
  rw [map_append] at located
  obtain ⟨ahead, container, position, _, goes, rfl⟩ := locate_append located
  obtain ⟨j, rfl⟩ := go_name_entry goes
  rw [← append_assoc] at place
  have impossible := (append_inj' place rfl).2
  cases impossible

variable {map : Object} {pair : KvPair}
variable {key : Key} {mpa : Accessor} {i : Nat}

theorem outKey_keyed (given : flbRaGetKvPair key map = some pair) : Keyed pair.outKey := by
  rw [flbRaGetKvPair_eq] at given
  obtain ⟨entry, present, rest⟩ := Option.bind_eq_some_iff.mp given
  split at rest
  · cases rest
    intro front i same
    cases front <;> simp at same
  · split at rest
    · obtain ⟨⟨positions, target⟩, located, rfl⟩ := Option.map_eq_some_iff.mp rest
      exact keyAt_keyed located
    · cases rest

theorem matchTable_keyed (inside : pair ∈ matchTable mpa map) : Keyed pair.outKey := by
  obtain ⟨mpRa, _, given⟩ := mem_filterMap.mp inside
  split at given
  · exact outKey_keyed given
  · cases given

variable {entries : List (Object × Object)}

theorem removeLoop_spec {table : List KvPair} (keyed : ∀ pair ∈ table, Keyed pair.outKey) (i : Nat)
    (keys : ∀ entry ∈ entries, Packable entry.1) (values : ∀ entry ∈ entries, Packable entry.2) :
    ∃ members : List ((Bytes × Object) × Bytes × Object),
      removeLoop table i entries = (members.length, members.flatMap fun member => member.1.1 ++ member.2.1) ∧
      (members.map fun member => (member.1.2, member.2.2)) = pruneEntries (taken table) i entries ∧
      (∀ member ∈ members, Encodes member.1.1 member.1.2) ∧ ∀ member ∈ members, Encodes member.2.1 member.2.2 := by
  induction entries generalizing i with
  | nil => exact ⟨[], rfl, rfl, by simp, by simp⟩
  | cons entry entries ih =>
    obtain ⟨key, val⟩ := entry
    obtain ⟨members, packed, left, encodesKeys, encodesValues⟩ :=
      ih (i + 1) (fun entry inside => keys entry (mem_cons_of_mem _ inside))
        (fun entry inside => values entry (mem_cons_of_mem _ inside))
    have first := encodes_pack (keys (key, val) (mem_cons_self ..))
    have second := values (key, val) (mem_cons_self ..)
    -- an entry that stays is one more member, with bytes of what is left of its value
    have stays : ∀ bytes, Encodes bytes (prune (fun below => taken table (.entry i :: below)) val) →
        taken table [.entry i] = false →
        ∃ members : List ((Bytes × Object) × Bytes × Object),
          counted (some (pack key ++ bytes)) (removeLoop table (i + 1) entries) =
            (members.length, members.flatMap fun member => member.1.1 ++ member.2.1) ∧
          (members.map fun member => (member.1.2, member.2.2)) =
            pruneEntries (taken table) i ((key, val) :: entries) ∧
          (∀ member ∈ members, Encodes member.1.1 member.1.2) ∧ ∀ member ∈ members, Encodes member.2.1 member.2.2 := by
      intro bytes encodes stays
      refine ⟨((pack key, key), bytes, prune (fun below => taken table (.entry i :: below)) val) :: members, ?_, ?_, ?_, ?_⟩
      · simp [counted, packed]
      · simp [pruneEntries, stays, left]
      · exact forall_mem_cons.mpr ⟨first, encodesKeys⟩
      · exact forall_mem_cons.mpr ⟨encodes, encodesValues⟩
    rw [removeLoop]
    cases found : accessorKeyFindMatch table i with
    | none =>
      have nothing : ∀ below, taken table (.entry i :: below) = false := by
        intro below
        simp [taken, found]
      apply stays (pack val) _ (nothing [])
      simp only [nothing, prune_none]
      exact encodes_pack second
    | some pair =>
      have single := keyed pair (mem_of_find?_eq_some found)
      simp only
      rw [accessorSubPack_eq single]
      by_cases whole : pair.outKey = some [.entry i]
      · refine ⟨members, ?_, ?_, encodesKeys, encodesValues⟩
        · simp [whole, counted, packed]
        · simp [pruneEntries, taken, found, whole, hit, left]
      · have kept : taken table [.entry i] = false := by
          cases target : pair.outKey with
          | none => simp [taken, found, target, hit, ofItem]
          | some place =>
            simpa [taken, found, target, hit, eq_comm] using whole
        rw [if_neg (by simpa using whole)]
        apply stays _ _ kept
        have same : (fun below => taken table (.entry i :: below)) = hit pair.outKey [.entry i] := by
          funext below
          simp [taken, found]
        rw [same]
        exact encodes_packWide (second.prune _)

theorem flbMpAccessorKeysRemove_encodes {bytes : Bytes} (packable : Packable (.map entries))
    (given : flbMpAccessorKeysRemove mpa entries = some bytes) :
    Encodes bytes (prune (taken (matchTable mpa (.map entries))) (.map entries)) := by
  cases packable with
  | map few keys values =>
    obtain ⟨members, packed, left, encodesKeys, encodesValues⟩ :=
      removeLoop_spec (fun pair inside => matchTable_keyed inside) 0 keys values
    unfold flbMpAccessorKeysRemove at given
    split at given
    · cases given
    · simp only at given
      split at given
      · cases given
      · cases given
        rw [packed, prune, ← left]
        apply encodes_wide_map _ encodesKeys encodesValues
        have short := @length_pruneEntries (taken (matchTable mpa (.map entries))) entries 0
        rw [← left, length_map] at short
        exact Nat.lt_of_le_of_lt short few

/-! ### The patterns -/

def keyPlace (key : Key) (map : Object) : Option (List Position) :=
  (locate key.path map).bind fun found => keyAt found.1 key.entries

def removedBy (mpa : Accessor) (map : Object) (place : List Position) : Bool :=
  mpa.raList.any fun mpRa => mpRa.isActive && keyPlace mpRa.ra map == some place

def startsFrom (map : Object) (i : Nat) (mpRa : AccessorRa) : Bool :=
  mpRa.isActive && (flbRaGetKvPair mpRa.ra map).any fun pair => pair.startKey == [.entry i]

def firstFor (mpa : Accessor) (map : Object) (i : Nat) : Option AccessorRa := mpa.raList.find? (startsFrom map i)

structure KeysRemoved (mpa : Accessor) (entries : List (Object × Object)) : Prop where
  returns : (flbMpAccessorKeysRemove mpa entries).isSome = true ↔
    ∃ mpRa ∈ mpa.raList, mpRa.isActive = true ∧ (follow mpRa.ra.path (.map entries)).isSome = true
  output : ∀ bytes, flbMpAccessorKeysRemove mpa entries = some bytes → ∀ limit,
    depth (prune (removedBy mpa (.map entries)) (.map entries)) ≤ limit →
    unpack limit bytes = .done (prune (removedBy mpa (.map entries)) (.map entries)) []

/-- The lookup finds one of the patterns if and only if one resolves, the first one that it finds under
an entry leads to a key, and the others under this entry to keys at or below it. -/
structure OneKeyEach (mpa : Accessor) (map : Object) : Prop where
  found : (∃ mpRa ∈ mpa.raList, mpRa.isActive = true ∧ (flbRaGetKvPair mpRa.ra map).isSome = true) ↔
    ∃ mpRa ∈ mpa.raList, mpRa.isActive = true ∧ (follow mpRa.ra.path map).isSome = true
  leads : ∀ i mpRa, firstFor mpa map i = some mpRa → (keyPlace mpRa.ra map).isSome = true
  covers : ∀ i place, removedBy mpa map (.entry i :: place) = true →
    ∃ mpRa key, firstFor mpa map i = some mpRa ∧ keyPlace mpRa.ra map = some key ∧ key <+: .entry i :: place

theorem accessorKeyFindMatch_eq :
    accessorKeyFindMatch (matchTable mpa map) i = (firstFor mpa map i).bind fun mpRa => flbRaGetKvPair mpRa.ra map := by
  obtain ⟨raList, sorted⟩ := mpa
  unfold accessorKeyFindMatch matchTable firstFor
  simp only
  clear sorted
  induction raList with
  | nil => rfl
  | cons mpRa later ih =>
    cases active : mpRa.isActive with
    | false => simpa [active, startsFrom] using ih
    | true =>
      cases given : flbRaGetKvPair mpRa.ra map with
      | none => simpa [active, given, startsFrom] using ih
      | some pair =>
        by_cases starts : pair.startKey = [.entry i]
        · simp [active, given, starts, startsFrom]
        · simpa [active, given, starts, startsFrom] using ih

variable {mpRa : AccessorRa}
variable {other : AccessorRa}

theorem startsFrom_iff : startsFrom map i mpRa = true ↔
      mpRa.isActive = true ∧ ∃ pair, flbRaGetKvPair mpRa.ra map = some pair ∧ pair.startKey = [.entry i] := by
  unfold startsFrom
  rw [Bool.and_eq_true, Option.any_eq_true]
  simp

theorem taken_eq (first : firstFor mpa map i = some mpRa) (given : flbRaGetKvPair mpRa.ra map = some pair)
    (below : List Position) : taken (matchTable mpa map) (.entry i :: below) = hit pair.outKey [.entry i] below := by
  simp [taken, accessorKeyFindMatch_eq, first, given]

theorem not_taken (none : firstFor mpa map i = none) (below : List Position) :
    taken (matchTable mpa map) (.entry i :: below) = false := by
  simp [taken, accessorKeyFindMatch_eq, none]

theorem firstFor_le {first : AccessorRa} (found : firstFor mpa map i = some first) (inside : other ∈ mpa.raList)
    (starts : startsFrom map i other = true) : first.subkeyCount ≤ other.subkeyCount := by
  obtain ⟨raList, sorted⟩ := mpa
  unfold firstFor at found
  induction raList with
  | nil => cases inside
  | cons mpRa later ih =>
    obtain ⟨ahead, rest⟩ := pairwise_cons.mp sorted
    rw [List.find?_cons] at found
    split at found
    · cases found
      rcases mem_cons.mp inside with rfl | further
      · exact Nat.le_refl _
      · exact ahead other further
    next skipped =>
      rcases mem_cons.mp inside with rfl | further
      · rw [starts] at skipped
        cases skipped
      · exact ih rest found further

theorem firstFor_exists (inside : other ∈ mpa.raList) (starts : startsFrom map i other = true) :
    ∃ first, firstFor mpa map i = some first := by
  cases found : firstFor mpa map i with
  | some first => exact ⟨first, rfl⟩
  | none => exact absurd starts (List.find?_eq_none.mp found other inside)

variable {place : List Position}

theorem keyPlace_spec (resolves : keyPlace key map = some place) :
    (∃ target, locate key.path map = some (place, target)) ∧ (∃ init name, key.entries = init ++ [.str name]) ∧
      Keyed (some place) ∧ ∃ i below, place = .entry i :: below ∧ below.length = key.subkeys.length := by
  obtain ⟨⟨positions, target⟩, located, last⟩ := Option.bind_eq_some_iff.mp resolves
  obtain ⟨rfl, ends⟩ := keyAt_some last
  have keyed := @keyAt_keyed key.entries map target [] place located
  rw [nil_append, last] at keyed
  refine ⟨⟨target, located⟩, ends, keyed, ?_⟩
  have length := length_of_locate located
  obtain ⟨⟨first, member⟩, goes, rest⟩ := Option.bind_eq_some_iff.mp located
  obtain ⟨⟨below, found⟩, _, same⟩ := Option.map_eq_some_iff.mp rest
  cases same
  obtain ⟨i, rfl⟩ := go_name_entry goes
  refine ⟨i, below, rfl, ?_⟩
  simpa [Key.path] using length

theorem keyPlace_eq (resolves : keyPlace key map = some place) (given : flbRaGetKvPair key map = some pair) :
    pair.outKey = some place ∧ ∃ below, place = pair.startKey ++ below := by
  obtain ⟨found, located, last⟩ := Option.bind_eq_some_iff.mp resolves
  rw [flbRaGetKvPair_eq] at given
  obtain ⟨entry, present, rest⟩ := Option.bind_eq_some_iff.mp given
  have goes := go_name key.name map
  rw [present, Option.map_some] at goes
  simp only [Key.path, locate, goes, Option.bind_some, Option.map_eq_some_iff] at located
  obtain ⟨⟨positions, target⟩, onward, same⟩ := located
  subst same
  obtain ⟨rfl, _⟩ := keyAt_some last
  by_cases more : key.subkeys = []
  · simp only [more, decide_true, Bool.true_or, ↓reduceIte, Option.some.injEq] at rest
    subst rest
    rw [more] at onward
    cases onward
    exact ⟨rfl, [], rfl⟩
  · have container : isContainer entry.2.2 = true := by
      rw [← Bool.not_eq_false]
      intro scalar
      have nothing := @follow_scalar _ scalar (key.subkeys.map Subentry.step) (by simpa using more)
      rw [follow, onward] at nothing
      cases nothing
    simp only [more, container, decide_false, Bool.not_true, Bool.or_self, Bool.false_eq_true, ↓reduceIte, onward] at rest
    split at rest
    · cases rest
      rw [Key.entries, keyAt_cons, if_neg more] at last
      exact ⟨last, positions, rfl⟩
    · cases rest

theorem startKey_entry (given : flbRaGetKvPair key map = some pair) : ∃ i, pair.startKey = [.entry i] := by
  rw [flbRaGetKvPair_eq] at given
  obtain ⟨entry, _, rest⟩ := Option.bind_eq_some_iff.mp given
  refine ⟨entry.1, ?_⟩
  split at rest
  · cases rest; rfl
  · split at rest
    · obtain ⟨found, _, rfl⟩ := Option.map_eq_some_iff.mp rest
      rfl
    · cases rest

theorem startsFrom_of_keyPlace {below : List Position} (active : mpRa.isActive = true)
    (resolves : keyPlace mpRa.ra map = some (.entry i :: below)) (small : bounded mpRa.ra.subkeys = true) :
    startsFrom map i mpRa = true := by
  obtain ⟨⟨target, located⟩, ⟨init, name, split⟩, _⟩ := keyPlace_spec resolves
  have found : follow mpRa.ra.path map = some target := by rw [follow, located]; rfl
  obtain ⟨pair, given, _⟩ := flbRaGetKvPair_of_follow split found fun more => ⟨small, hasName_of_last split more⟩
  obtain ⟨j, starts⟩ := startKey_entry given
  obtain ⟨_, later, shape⟩ := keyPlace_eq resolves given
  rw [starts] at shape
  cases shape
  exact startsFrom_iff.mpr ⟨active, pair, given, starts⟩

theorem removedBy_iff : removedBy mpa map place = true ↔
      ∃ mpRa ∈ mpa.raList, mpRa.isActive = true ∧ keyPlace mpRa.ra map = some place := by
  unfold removedBy
  simp

theorem prune_taken (right : OneKeyEach mpa map) :
    prune (taken (matchTable mpa map)) map = prune (removedBy mpa map) map := by
  have first : ∀ i mpRa, firstFor mpa map i = some mpRa → ∃ key below, keyPlace mpRa.ra map = some key ∧
      key = .entry i :: below ∧ ∀ later, taken (matchTable mpa map) (.entry i :: later) = decide (.entry i :: later = key) := by
    intro i mpRa found
    obtain ⟨key, resolves⟩ := Option.isSome_iff_exists.mp (right.leads i mpRa found)
    obtain ⟨_, pair, given, starts⟩ := startsFrom_iff.mp (List.find?_some found)
    obtain ⟨outKey, below, shape⟩ := keyPlace_eq resolves given
    rw [starts] at shape
    refine ⟨key, below, resolves, shape, ?_⟩
    intro later
    rw [taken_eq found given, outKey]
    rfl
  apply prune_congr
  · intro place some there
    refine ⟨place, some, prefix_rfl, ?_⟩
    cases place with
    | nil => exact absurd rfl some
    | cons position later =>
      cases position with
      | item i => cases there
      | entry i =>
        cases found : firstFor mpa map i with
        | none =>
          rw [not_taken found] at there
          cases there
        | some mpRa =>
          obtain ⟨key, below, resolves, _, takes⟩ := first i mpRa found
          rw [takes later] at there
          rw [of_decide_eq_true there]
          obtain ⟨active, _⟩ := startsFrom_iff.mp (List.find?_some found)
          exact removedBy_iff.mpr ⟨mpRa, mem_of_find?_eq_some found, active, resolves⟩
  · intro place _ there
    obtain ⟨other, _, _, resolves⟩ := removedBy_iff.mp there
    obtain ⟨_, _, _, i, below, rfl, _⟩ := keyPlace_spec resolves
    obtain ⟨mpRa, key, found, leads, above⟩ := right.covers i below there
    obtain ⟨same, later, again, shape, takes⟩ := first i mpRa found
    rw [leads] at again
    cases again
    refine ⟨key, by rw [shape]; simp, above, ?_⟩
    rw [shape, takes later, ← shape]
    simp

theorem isSome_keysRemove : (flbMpAccessorKeysRemove mpa entries).isSome = true ↔
      ∃ mpRa ∈ mpa.raList, mpRa.isActive = true ∧ (flbRaGetKvPair mpRa.ra (.map entries)).isSome = true := by
  have table : matchTable mpa (.map entries) = [] ↔
      ¬ ∃ mpRa ∈ mpa.raList, mpRa.isActive = true ∧ (flbRaGetKvPair mpRa.ra (.map entries)).isSome = true := by
    unfold matchTable
    rw [filterMap_eq_nil_iff]
    simp only [not_exists, not_and, Bool.not_eq_true, Option.isSome_eq_false_iff, Option.isNone_iff_eq_none]
    apply forall_congr'
    intro mpRa
    apply forall_congr'
    intro _
    cases mpRa.isActive <;> simp
  unfold flbMpAccessorKeysRemove
  cases entries with
  | nil =>
    simp only [length_nil, ↓reduceIte, Option.isSome_none, Bool.false_eq_true, false_iff]
    rw [← table, matchTable, filterMap_eq_nil_iff]
    intro mpRa _
    split
    · rfl
    · rfl
  | cons entry entries =>
    by_cases none : matchTable mpa (.map (entry :: entries)) = []
    · simp only [length_cons, succ_ne_zero, ↓reduceIte, none, length_nil, Option.isSome_none,
        Bool.false_eq_true, false_iff]
      exact table.mp none
    · have some : (matchTable mpa (.map (entry :: entries))).length ≠ 0 := by simpa using none
      simp only [length_cons, succ_ne_zero, ↓reduceIte, some, Option.isSome_some, true_iff]
      exact not_not.mp (table.not.mp none)

theorem taken_of_removed (goes : removedBy mpa map [.entry i] = true) : taken (matchTable mpa map) [.entry i] = true ∧
      ∀ first, firstFor mpa map i = some first → first.ra.subkeys = [] := by
  obtain ⟨other, inside, active, resolves⟩ := removedBy_iff.mp goes
  obtain ⟨_, _, _, j, below, shape, length⟩ := keyPlace_spec resolves
  cases shape
  have none : other.ra.subkeys = [] := length_eq_zero_iff.mp length.symm
  have starts := startsFrom_of_keyPlace active resolves (by rw [none]; rfl)
  have fewest : ∀ first, firstFor mpa map i = some first → first.ra.subkeys = [] := by
    intro first found
    have few := firstFor_le found inside starts
    unfold AccessorRa.subkeyCount at few
    rw [none] at few
    exact length_eq_zero_iff.mp (le_zero.mp few)
  refine ⟨?_, fewest⟩
  obtain ⟨first, found⟩ := firstFor_exists inside starts
  obtain ⟨_, pair, given, begins⟩ := startsFrom_iff.mp (List.find?_some found)
  rw [taken_eq found given]
  rw [flbRaGetKvPair_eq] at given
  obtain ⟨entry, _, rest⟩ := Option.bind_eq_some_iff.mp given
  simp only [fewest first found, decide_true, Bool.true_or, ↓reduceIte, Option.some.injEq] at rest
  subst rest
  simp only at begins
  simp [hit, begins]

section

variable {mpa : Accessor} {entries : List (Object × Object)} {i : Nat}
variable {entry : Object × Object} {key : Key}

theorem left_of_same (same : prune (taken (matchTable mpa (.map entries))) (.map entries) =
      prune (removedBy mpa (.map entries)) (.map entries)) (there : entries[i]? = some entry) :
    taken (matchTable mpa (.map entries)) [.entry i] = removedBy mpa (.map entries) [.entry i] ∧
      (taken (matchTable mpa (.map entries)) [.entry i] = false →
        prune (fun place => taken (matchTable mpa (.map entries)) (.entry i :: place)) entry.2 =
          prune (fun place => removedBy mpa (.map entries) (.entry i :: place)) entry.2) := by
  have apart := pruneEntries_inj (fun i goes => (taken_of_removed goes).1) (Object.map.inj same) there
  rw [Nat.zero_add] at apart
  exact apart

theorem member_of_removed (goes : removedBy mpa map place = true) : Member place map := by
  obtain ⟨_, _, _, resolves⟩ := removedBy_iff.mp goes
  obtain ⟨⟨target, located⟩, _⟩ := keyPlace_spec resolves
  exact member_of_locate located

theorem keyEntry_there {ckey : Bytes} {j : Nat} (present : keyEntry ckey (.map entries) = some (j, entry)) :
    entries[j]? = some entry := by
  unfold keyEntry at present
  split at present
  next id _ _ =>
    obtain ⟨found, there, same⟩ := Option.map_eq_some_iff.mp present
    cases same
    rename_i _ same _
    cases same
    exact there
  · cases present

theorem bounded_iff : bounded key.subkeys = true ↔ Step.index intMax ∉ key.path := by
  unfold bounded Key.path
  rw [all_eq_true]
  constructor
  · intro small inside
    rcases mem_cons.mp inside with impossible | later
    · cases impossible
    · obtain ⟨entry, member, step⟩ := mem_map.mp later
      have other := small entry member
      cases entry with
      | str name => cases step
      | arrayId id =>
        simp only [Subentry.step, Step.index.injEq] at step
        simp [step] at other
  · intro absent entry member
    cases entry with
    | str name => rfl
    | arrayId id =>
      simp only [bne_iff_ne, ne_eq]
      intro largest
      apply absent
      apply mem_cons_of_mem
      exact mem_map.mpr ⟨_, member, by rw [Subentry.step, largest]⟩

theorem bounded_of_prefix {other : Key} {object target found : Object} {positions above : List Position}
    (small : bounded other.subkeys = true) (located : locate other.path object = some (positions, target))
    (within : above <+: positions) (reached : locate key.path object = some (above, found)) :
    bounded key.subkeys = true := by
  rw [bounded_iff] at small ⊢
  intro inside
  have item := (item_mem_of_locate reached).mpr inside
  exact small ((item_mem_of_locate located).mp (within.subset item))

theorem ends_in_index (more : subkeys ≠ []) (null : keyAt place subkeys = none) :
    ∃ init id, subkeys = init ++ [.arrayId id] := by
  obtain ⟨init, last, split⟩ := (eq_nil_or_concat subkeys).resolve_left more
  rw [concat_eq_append] at split
  subst split
  cases last with
  | str name => simp [keyAt] at null
  | arrayId id => exact ⟨init, id, rfl⟩

section

variable
  (same : prune (taken (matchTable mpa (.map entries))) (.map entries) = prune (removedBy mpa (.map entries)) (.map entries))
include same

theorem leads_of_same (found : firstFor mpa (.map entries) i = some mpRa) :
    (keyPlace mpRa.ra (.map entries)).isSome = true := by
  obtain ⟨active, pair, given, begins⟩ := startsFrom_iff.mp (List.find?_some found)
  have takes := taken_eq found given
  rw [flbRaGetKvPair_eq] at given
  obtain ⟨⟨j, key, val⟩, present, rest⟩ := Option.bind_eq_some_iff.mp given
  have goes := go_name mpRa.ra.name (.map entries)
  rw [present, Option.map_some] at goes
  by_cases more : mpRa.ra.subkeys = []
  · simp [keyPlace, Key.path, Key.entries, more, locate, goes, keyAt]
  simp only [more, decide_false, Bool.false_or] at rest
  split at rest
  next scalar =>
    cases rest
    cases begins
    have there := keyEntry_there present
    have whole : taken (matchTable mpa (.map entries)) [.entry i] = true := by
      rw [takes []]
      simp [hit]
    rw [(left_of_same same there).1] at whole
    exact absurd ((taken_of_removed whole).2 mpRa found) more
  · split at rest
    next usable =>
      obtain ⟨⟨positions, target⟩, located, rfl⟩ := Option.map_eq_some_iff.mp rest
      cases begins
      have path : locate mpRa.ra.path (.map entries) = some (.entry i :: positions, target) := by
        simp [Key.path, locate, goes, located]
      cases last : keyAt ([.entry i] ++ positions) mpRa.ra.subkeys with
      | some place =>
        unfold keyPlace
        rw [path, Option.bind_some, Key.entries, keyAt_cons, if_neg more]
        simp only [singleton_append] at last
        rw [last]
        rfl
      | none =>
        exfalso
        simp only [last] at takes
        have there := keyEntry_there present
        have below := (left_of_same same there).2 (takes [])
        obtain ⟨init, id, split⟩ := ends_in_index more last
        have zero := @count_prune_items (fun place => taken (matchTable mpa (.map entries)) (.entry i :: place))
          (fun place j => by rw [takes]; simp [hit, ofItem]) val
        rw [below] at zero
        have item := located
        rw [split, map_append] at item
        obtain ⟨front, container, position, _, last, shape⟩ := locate_append item
        obtain ⟨n, rfl⟩ := go_index_item last
        rw [shape] at located
        apply Nat.ne_of_gt (count_prune_pos (member_of_locate located) _) zero
        rw [shape] at path
        -- a key on the way would be that of a pattern with fewer steps
        intro above _ within
        rw [Bool.eq_false_iff]
        intro goes
        obtain ⟨other, inside, active, resolves⟩ := removedBy_iff.mp goes
        obtain ⟨⟨found', reached⟩, _, keyed, _, later, same, length⟩ := keyPlace_spec resolves
        cases same
        have small := bounded_of_prefix (Bool.and_eq_true_iff.mp usable).1 path
          (cons_prefix_cons.mpr ⟨rfl, within⟩) reached
        have few := firstFor_le found inside (startsFrom_of_keyPlace active resolves small)
        have long := length_of_locate located
        rw [length_map] at long
        unfold AccessorRa.subkeyCount at few
        have whole := within.eq_of_length_le (by omega)
        rw [whole] at keyed
        exact keyed (.entry i :: front) n rfl
    · cases rest

theorem covers_of_same (goes : removedBy mpa (.map entries) (.entry i :: place) = true) :
    ∃ mpRa key, firstFor mpa (.map entries) i = some mpRa ∧ keyPlace mpRa.ra (.map entries) = some key ∧
      key <+: .entry i :: place := by
  obtain ⟨entry, there, member⟩ := member_of_removed goes
  obtain ⟨here, below⟩ := left_of_same same there
  -- a key that is clear of what the first match takes leaves less
  have impossible : place ≠ [] → (∀ later, taken (matchTable mpa (.map entries)) (.entry i :: later) = true →
        removedBy mpa (.map entries) (.entry i :: later) = true) →
      taken (matchTable mpa (.map entries)) [.entry i] = false →
      ¬ Clear (fun later => taken (matchTable mpa (.map entries)) (.entry i :: later)) place := by
    intro some more stays clear
    have less := count_prune_lt more some member goes clear
    rw [below stays] at less
    exact Nat.lt_irrefl _ less
  cases found : firstFor mpa (.map entries) i with
  | none =>
    have stays := not_taken found
    by_cases some : place = []
    · subst some
      rw [goes, stays []] at here
      cases here
    · exfalso
      refine impossible some ?_ (stays []) fun above _ _ => stays above
      intro later there
      rw [stays later] at there
      cases there
  | some mpRa =>
    obtain ⟨key, resolves⟩ := Option.isSome_iff_exists.mp (leads_of_same same found)
    obtain ⟨active, pair, given, begins⟩ := startsFrom_iff.mp (List.find?_some found)
    obtain ⟨outKey, later, shape⟩ := keyPlace_eq resolves given
    have takes : ∀ later, taken (matchTable mpa (.map entries)) (.entry i :: later) = decide (.entry i :: later = key) := by
      intro later
      rw [taken_eq found given, outKey]
      rfl
    refine ⟨mpRa, key, rfl, resolves, ?_⟩
    by_contra outside
    have stays : taken (matchTable mpa (.map entries)) [.entry i] = false := by
      rw [takes, decide_eq_false_iff_not]
      intro whole
      exact outside (whole ▸ cons_prefix_cons.mpr ⟨rfl, nil_prefix⟩)
    by_cases some : place = []
    · subst some
      rw [goes, stays] at here
      cases here
    · refine impossible some ?_ stays ?_
      · intro later there
        rw [takes later] at there
        rw [of_decide_eq_true there]
        exact removedBy_iff.mpr ⟨mpRa, mem_of_find?_eq_some found, active, resolves⟩
      · intro above _ within
        simp only [takes, decide_eq_false_iff_not]
        intro whole
        exact outside (whole ▸ cons_prefix_cons.mpr ⟨rfl, within⟩)

end

end

variable {mpa : Accessor} {entries : List (Object × Object)}

theorem KeysRemoved.oneKeyEach (packable : Packable (.map entries)) (removed : KeysRemoved mpa entries) :
    OneKeyEach mpa (.map entries) := by
  have found := isSome_keysRemove.symm.trans removed.returns
  have same : (∃ mpRa ∈ mpa.raList, mpRa.isActive = true ∧ (flbRaGetKvPair mpRa.ra (.map entries)).isSome = true) →
      prune (taken (matchTable mpa (.map entries))) (.map entries) =
        prune (removedBy mpa (.map entries)) (.map entries) := by
    intro some
    obtain ⟨bytes, given⟩ := Option.isSome_iff_exists.mp (isSome_keysRemove.mpr some)
    have right := removed.output bytes given _ (Nat.le_max_right
      (depth (prune (taken (matchTable mpa (.map entries))) (.map entries))) _)
    have packed := (flbMpAccessorKeysRemove_encodes packable given).unpack
      (Nat.le_max_left _ (depth (prune (removedBy mpa (.map entries)) (.map entries)))) []
    rw [append_nil, right] at packed
    exact ((Msgpack.Reading.done.inj packed).1).symm
  refine ⟨found, ?_, ?_⟩
  · intro i mpRa first
    obtain ⟨active, pair, given, _⟩ := startsFrom_iff.mp (List.find?_some first)
    exact leads_of_same (same ⟨mpRa, mem_of_find?_eq_some first, active, by rw [given]; rfl⟩) first
  · intro i place goes
    obtain ⟨mpRa, inside, active, resolves⟩ := removedBy_iff.mp goes
    obtain ⟨⟨target, located⟩, _⟩ := keyPlace_spec resolves
    exact covers_of_same (same (found.mpr ⟨mpRa, inside, active, by rw [follow, located]; rfl⟩)) goes

theorem OneKeyEach.keysRemoved (packable : Packable (.map entries)) (right : OneKeyEach mpa (.map entries)) :
    KeysRemoved mpa entries := by
  refine ⟨isSome_keysRemove.trans right.found, ?_⟩
  intro bytes given limit fits
  have packed := flbMpAccessorKeysRemove_encodes packable given
  rw [prune_taken right] at packed
  have read := packed.unpack fits []
  rwa [append_nil] at read

section

/-- `$a['x']` and `$a['y']` -/
private theorem outer_noZero : (0 : UInt8) ∉ [0x61] := by decide

private def nested (last : UInt8) (noZero : 0 ∉ [last]) : Key := ⟨⟨[0x61], outer_noZero⟩, [.str ⟨[last], noZero⟩]⟩

/-- `{"a": {"x": nil, "y": nil}}` -/
private def sample : List (Object × Object) := [(.str [0x61], .map [(.str [0x78], .nil), (.str [0x79], .nil)])]

private theorem sample_packable : Packable (.map sample) := by
  have inner : Packable (.map [(.str [0x78], .nil), (.str [0x79], .nil)]) :=
    .map (by decide) (by simp [Packable.str]) (by simp [Packable.nil])
  exact .map (by decide) (by simp [sample, Packable.str]) (by simpa [sample] using inner)

end

end FluentBit.RecordAccessor
