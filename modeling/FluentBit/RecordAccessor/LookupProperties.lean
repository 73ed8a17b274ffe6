import FluentBit.RecordAccessor.Lookup

/-! The lookups against paths. All of them look at one value, and it is the one at the end of the
path, but for paths of indices only and for steps below a value that has no members. -/

set_option autoImplicit false

namespace FluentBit.RecordAccessor

open List Nat Option CString Function
open Msgpack

theorem sdsEq_iff {s str : Bytes} (noZero : 0 ∉ s) : sdsEq s str = true ↔ s = str := by
  unfold sdsEq
  rw [Bool.and_eq_true, beq_iff_eq, beq_iff_eq]
  constructor
  · rintro ⟨length, equal⟩
    exact (strncmp_eq_iff noZero length).mp equal
  · rintro rfl
    exact ⟨rfl, (strncmp_eq_iff noZero rfl).mpr rfl⟩

theorem hasKey_eq (name : Name) : hasKey name.text = Entitled name.text := by
  funext entry
  obtain ⟨key, val⟩ := entry
  cases key with
  | str key =>
    rw [Bool.eq_iff_iff]
    simp only [hasKey, Entitled, sdsEq_iff name.noZero, beq_iff_eq]
    exact eq_comm
  | _ => rfl

def Subentry.step : Subentry → Step
  | .str name => .name name.text
  | .arrayId id => .index id.val

def Key.path (key : Key) : List Step := .name key.name.text :: key.subkeys.map Subentry.step

def Key.entries (key : Key) : List Subentry := .str key.name :: key.subkeys

variable (key : Key)

theorem path_eq : key.path = key.entries.map Subentry.step := rfl

theorem go_name (name : Name) (map : Object) :
    (Step.name name.text).go map = (keyEntry name.text map).map fun entry => (.entry entry.1, entry.2.2) := by
  cases map with
  | map entries =>
    simp only [Step.go, keyEntry, raKeyValId, hasKey_eq, lastIndex]
    cases lastBelow (Entitled name.text) entries entries.length with
    | none => rfl
    | some i => simp [comp_def]
  | _ => rfl

/-! ### The walk -/

/-- No index is the largest `int`, which the walk refuses. -/
def bounded (subkeys : List Subentry) : Bool :=
  subkeys.all fun
    | .str _ => true
    | .arrayId id => id.val != intMax

def hasName (subkeys : List Subentry) : Bool :=
  subkeys.any fun
    | .str _ => true
    | .arrayId _ => false

def keyAt (place : List Position) (subkeys : List Subentry) : Option (List Position) :=
  match subkeys.getLast? with
  | some (.str _) => some place
  | _ => none

variable {walk : Walk}
variable {levels : Nat}

theorem Walk.result_of_short (sound : walk.found = true → 0 < walk.matched) (short : walk.matched < levels) :
    walk.result levels = none := by
  unfold Walk.result
  cases found : walk.found with
  | false => simp
  | true =>
    have some := sound found
    have other : levels ≠ walk.matched := by omega
    simp [some, other]

theorem result_of_behind (later : List Subentry) (sound : walk.found = true → 0 < walk.matched)
    (behind : walk.matched + later.length < levels) :
    ((subkeyLoop levels later walk).bind fun walk => walk.result levels) = none := by
  induction later generalizing walk with
  | nil => exact Walk.result_of_short sound behind
  | cons entry later ih =>
    have other : levels ≠ walk.matched + 1 := by
      rw [length_cons] at behind
      omega
    have onward : walk.matched + 1 + later.length < levels := by
      rw [length_cons] at behind
      omega
    cases entry with
    | arrayId id =>
      simp only [subkeyLoop]
      split
      next items _ =>
        split
        · rfl
        · split
          · rfl
          next item _ => exact ih (fun _ => succ_pos _) onward
      · rfl
    | str name =>
      simp only [subkeyLoop]
      split
      next entries _ =>
        split
        · apply ih
          · intro impossible
            cases impossible
          · exact Nat.lt_trans (Nat.add_lt_add_right (lt_succ_self _) _) onward
        next i key val _ =>
          rw [if_neg other]
          exact ih (fun _ => succ_pos _) onward
      · exact Walk.result_of_short sound (by omega)

def Walk.seeks (walk : Walk) (later : List Subentry) : Option (Option (List Position) × Object) :=
  if bounded later && (walk.found || hasName later) then
    (locate (later.map Subentry.step) walk.cur).map fun found =>
      (if later = [] then walk.key else keyAt (walk.place ++ found.1) later, found.2)
  else none

def onward (levels : Nat) (later : List Subentry) (walk : Walk) : Option (Option (List Position) × Object) :=
  (if levels = walk.matched then some walk else subkeyLoop levels later walk).bind fun walk => walk.result levels

def Subentry.isName : Subentry → Bool
  | .str _ => true
  | .arrayId _ => false

theorem keyAt_cons (place : List Position) (entry : Subentry) (later : List Subentry) :
    keyAt place (entry :: later) = if later = [] then keyAt place [entry] else keyAt place later := by
  cases later with
  | nil => rfl
  | cons next later => simp [keyAt]

theorem Walk.seeks_cons {entry : Subentry} {later : List Subentry} {position : Position} {object : Object}
    (next : Walk) (small : bounded [entry] = true) (goes : entry.step.go walk.cur = some (position, object))
    (cur : next.cur = object) (place : next.place = walk.place ++ [position])
    (found : next.found = (walk.found || entry.isName)) (key : next.key = keyAt next.place [entry]) :
    walk.seeks (entry :: later) = next.seeks later := by
  have bounds : bounded (entry :: later) = bounded later := by
    simpa [bounded] using fun _ => by simpa [bounded] using small
  have names : hasName (entry :: later) = (entry.isName || hasName later) := by
    cases entry <;> simp [hasName, Subentry.isName]
  unfold Walk.seeks
  rw [bounds, names, found, Bool.or_assoc, cur, key, place]
  split
  · simp only [map_cons, locate, goes, bind_some, Option.map_map, comp_def, reduceCtorEq,
      ↓reduceIte, keyAt_cons _ entry later, append_assoc, cons_append, nil_append]
    cases later with
    | nil => simp [locate]
    | cons second later => simp
  · rfl

theorem result_step (entry : Subentry) (later : List Subentry) (sound : walk.found = true → 0 < walk.matched)
    (inStep : walk.matched + (later.length + 1) = levels)
    (rest : ∀ next : Walk, next.matched = walk.matched + 1 → next.val = some next.cur → onward levels later next = next.seeks later) :
    ((subkeyLoop levels (entry :: later) walk).bind fun walk => walk.result levels) = walk.seeks (entry :: later) := by
  cases entry with
  | arrayId id =>
    cases current : walk.cur with
    | array items =>
      by_cases largest : id.val = intMax
      · simp [subkeyLoop, current, largest, Walk.seeks, bounded]
      · cases present : items[id.val]? with
        | none => simp [subkeyLoop, largest, Walk.seeks, locate, Subentry.step, Step.go, current, present]
        | some item =>
          have arrived := rest { walk with
            cur := item, place := walk.place ++ [.item id.val], key := none, val := some item
            matched := walk.matched + 1 } rfl rfl
          simp only [subkeyLoop, current, largest, present, ↓reduceIte]
          refine Eq.trans arrived (Walk.seeks_cons _ ?_ ?_ rfl rfl ?_ rfl).symm
          · simpa [bounded] using largest
          · simp [Subentry.step, Step.go, current, present]
          · simp [Subentry.isName]
    | _ => simp [subkeyLoop, Walk.seeks, locate, Subentry.step, Step.go, current]
  | str name =>
    cases current : walk.cur with
    | map entries =>
      have goes := go_name name (.map entries)
      cases present : keyEntry name.text (.map entries) with
      | none =>
        simp only [subkeyLoop, current, present]
        rw [result_of_behind later Bool.false_ne_true.elim (by simp; omega)]
        simp [Walk.seeks, locate, Subentry.step, current, goes, present]
      | some entry =>
        have arrived := rest { walk with
          cur := entry.2.2, place := walk.place ++ [.entry entry.1], key := some (walk.place ++ [.entry entry.1])
          val := some entry.2.2, found := true, matched := walk.matched + 1 } rfl rfl
        simp only [subkeyLoop, current, present]
        refine Eq.trans arrived (Walk.seeks_cons _ rfl ?_ rfl rfl ?_ rfl).symm
        · simp [Subentry.step, current, goes, present]
        · simp [Subentry.isName]
    | _ =>
      simp only [subkeyLoop, current, bind_some]
      rw [Walk.result_of_short sound (by omega)]
      simp [Walk.seeks, locate, Subentry.step, Step.go, current]

theorem onward_eq (later : List Subentry) (some : 0 < walk.matched) (inStep : walk.matched + later.length = levels)
    (val : walk.val = .some walk.cur) : onward levels later walk = walk.seeks later := by
  induction later generalizing walk with
  | nil =>
    have whole : levels = walk.matched := inStep.symm
    cases found : walk.found <;> simp [onward, whole, Walk.result, Walk.seeks, found, val, bounded, hasName, locate]
  | cons entry later ih =>
    have other : levels ≠ walk.matched := by simp at inStep; omega
    unfold onward
    rw [if_neg other]
    apply result_step entry later (fun _ => some) inStep
    intro next matched arrived
    exact ih (by omega) (by rw [matched]; simp at inStep; omega) arrived

variable (map : Object)

theorem subkeyToObject_eq (place : List Position) {subkeys : List Subentry} (more : subkeys ≠ []) :
    subkeyToObject map place subkeys = if bounded subkeys && hasName subkeys then
        (locate (subkeys.map Subentry.step) map).map fun found => (keyAt (place ++ found.1) subkeys, found.2)
      else none := by
  cases subkeys with
  | nil => exact absurd rfl more
  | cons entry later =>
    unfold subkeyToObject
    rw [result_step entry later Bool.false_ne_true.elim (by simp)]
    · simp [Walk.seeks]
    · intro next matched arrived
      exact onward_eq later (by omega) (by simp [matched]; omega) arrived

/-! ### The four lookups -/

/-- The value that `flb_ra_get_kv_pair` points to. -/
def looked (key : Key) (map : Object) : Option Object := (flbRaGetKvPair key map).map KvPair.outVal

theorem flbRaGetValueObject_eq : flbRaGetValueObject key map = (looked key map).bind toRaValue := by
  unfold flbRaGetValueObject flbRaKeyToValue looked flbRaGetKvPair flbRaKeyValueGet
  split
  · rfl
  next i _ val _ =>
    split
    · cases subkeyToObject val [.entry i] key.subkeys <;> rfl
    · rfl

theorem flbRaKeyStrcmp_eq (str : Bytes) :
    flbRaKeyStrcmp key map str = (looked key map).elim (-1) fun value => msgpackObjectStrcmp value str := by
  unfold flbRaKeyStrcmp looked flbRaGetKvPair flbRaKeyValueGet
  split
  · rfl
  next i _ val _ =>
    split
    · cases subkeyToObject val [.entry i] key.subkeys <;> rfl
    · rfl

theorem flbRaRegexMatch_eq (regex : Bytes → Int) :
    flbRaRegexMatch key map regex = (looked key map).elim (-1) (searchObject regex) := by
  unfold flbRaRegexMatch flbRaKeyRegexMatch looked flbRaGetKvPair flbRaKeyValueGet
  split
  · rfl
  next i _ val _ =>
    split
    · cases subkeyToObject val [.entry i] key.subkeys <;> rfl
    · rfl

variable {value : Object}

theorem toRaValue_o {result : RaValue} (given : toRaValue value = some result) : result.o = value := by
  cases value <;> cases given <;> rfl

theorem msgpackObjectStrcmp_iff (name : Name) : msgpackObjectStrcmp value name.text = 0 ↔ value = .str name.text := by
  cases value with
  | str text =>
    unfold msgpackObjectStrcmp
    by_cases length : text.length = name.text.length
    · have equal := strncmp_eq_iff name.noZero length.symm
      rw [strncmp_eq_comm, length] at equal
      simp only [length, bne_self_eq_false, Bool.false_eq_true, ↓reduceIte, sign_eq_zero_iff, equal, Object.str.injEq]
      exact eq_comm
    · have other : text ≠ name.text := fun same => length (congrArg List.length same)
      simp [length, other]
  | _ => simp [msgpackObjectStrcmp]

/-- The accessor leads where its path does: no step is below a value without members, and a path
of steps that exists has a name among them and no index that is the largest `int`. -/
structure Findable (key : Key) (map : Object) : Prop where
  members : ∀ top, follow [.name key.name.text] map = some top → key.subkeys ≠ [] → isContainer top = true
  named : ∀ value, follow key.path map = some value → key.subkeys ≠ [] →
    bounded key.subkeys = true ∧ hasName key.subkeys = true

theorem follow_scalar {value : Object} (scalar : isContainer value = false) {path : List Step} (more : path ≠ []) :
    follow path value = none := by
  cases path with
  | nil => exact absurd rfl more
  | cons step path =>
    cases value with
    | array items | map entries => cases scalar
    | _ => cases step <;> rfl

theorem flbRaGetKvPair_eq : flbRaGetKvPair key map = (keyEntry key.name.text map).bind fun entry =>
      if key.subkeys = [] || !isContainer entry.2.2 then
        some { startKey := [.entry entry.1], outKey := some [.entry entry.1], outVal := entry.2.2 }
      else if bounded key.subkeys && hasName key.subkeys then
        (locate (key.subkeys.map Subentry.step) entry.2.2).map fun found =>
          { startKey := [.entry entry.1], outKey := keyAt ([.entry entry.1] ++ found.1) key.subkeys, outVal := found.2 }
      else none := by
  unfold flbRaGetKvPair flbRaKeyValueGet
  cases keyEntry key.name.text map with
  | none => rfl
  | some entry =>
    by_cases more : key.subkeys = []
    · simp [more]
    · have positive : 0 < key.subkeys.length := length_pos_of_ne_nil more
      simp only [bind_some, subkeyToObject_eq _ _ more, positive, more, decide_true, Bool.and_true,
        decide_false, Bool.false_or]
      cases container : isContainer entry.2.2 with
      | false => rfl
      | true =>
        cases usable : bounded key.subkeys && hasName key.subkeys with
        | false => rfl
        | true =>
          simp only [↓reduceIte, Bool.not_true, Bool.false_eq_true]
          cases locate (key.subkeys.map Subentry.step) entry.2.2 <;> rfl

theorem looked_eq : looked key map = (follow [.name key.name.text] map).bind fun top =>
      if key.subkeys = [] || !isContainer top then some top
      else if bounded key.subkeys && hasName key.subkeys then follow (key.subkeys.map Subentry.step) top
      else none := by
  unfold looked
  rw [flbRaGetKvPair_eq, follow_cons, go_name]
  cases keyEntry key.name.text map with
  | none => rfl
  | some entry =>
    simp only [map_some, bind_some, follow_nil]
    split
    · rfl
    · split
      · rw [Option.map_map, follow]; rfl
      · rfl

theorem follow_path : follow key.path map =
      (follow [.name key.name.text] map).bind fun top => follow (key.subkeys.map Subentry.step) top := by
  unfold Key.path
  rw [follow_cons, follow_cons]
  cases (Step.name key.name.text).go map <;> rfl

theorem looked_eq_follow_iff : looked key map = follow key.path map ↔ Findable key map := by
  have path := follow_path key map
  rw [looked_eq]
  cases top : follow [.name key.name.text] map with
  | none =>
    rw [top] at path
    simp only [bind_none] at path ⊢
    rw [path]
    exact ⟨fun _ => ⟨by simp [top], by simp [path]⟩, fun _ => rfl⟩
  | some value =>
    rw [top, bind_some] at path
    rw [bind_some, path]
    by_cases more : key.subkeys = []
    · simp only [more, decide_true, Bool.true_or, ↓reduceIte, map_nil, follow_nil, true_iff]
      exact ⟨fun _ _ steps => absurd more steps, fun _ _ steps => absurd more steps⟩
    · have steps : key.subkeys.map Subentry.step ≠ [] := by simpa using more
      cases container : isContainer value with
      | false =>
        have nothing := follow_scalar container steps
        simp only [more, nothing, decide_false, Bool.not_false, Bool.or_true, ↓reduceIte, reduceCtorEq, false_iff]
        intro findable
        have impossible := findable.members value top more
        rw [container] at impossible
        cases impossible
      | true =>
        simp only [more, decide_false, Bool.not_true, Bool.or_self, Bool.false_eq_true, ↓reduceIte]
        cases usable : bounded key.subkeys && hasName key.subkeys with
        | true =>
          refine ⟨fun _ => ⟨?_, fun _ _ _ => Bool.and_eq_true_iff.mp usable⟩, fun _ => rfl⟩
          intro found same _
          rw [top] at same
          cases same
          exact container
        | false =>
          simp only [Bool.false_eq_true, ↓reduceIte]
          constructor
          · intro nothing
            refine ⟨?_, ?_⟩
            · intro found same _
              rw [top] at same
              cases same
              exact container
            · intro found exists_ _
              rw [path, ← nothing] at exists_
              cases exists_
          · intro findable
            cases target : follow (key.subkeys.map Subentry.step) value with
            | none => rfl
            | some found =>
              have both := findable.named found (path.trans target) more
              rw [both.1, both.2] at usable
              cases usable

/-! ### Pairs -/

theorem entries_split : ∃ init last, key.entries = init ++ [last] := by
  rcases eq_nil_or_concat key.entries with none | ⟨init, last, split⟩
  · cases none
  · exact ⟨init, last, by simpa using split⟩

variable {init : List Subentry} {last : Subentry}

theorem path_split {key : Key} (split : key.entries = init ++ [last]) :
    key.path = init.map Subentry.step ++ [last.step] := by
  rw [path_eq, split, map_append]
  rfl

theorem bounded_append (left right : List Subentry) : bounded (left ++ right) = (bounded left && bounded right) := by
  simp [bounded]

theorem bounded_entries : bounded key.entries = bounded key.subkeys := by
  simp [Key.entries, bounded]

theorem getLast_subkeys {key : Key} (split : key.entries = init ++ [last]) (more : key.subkeys ≠ []) :
    key.subkeys.getLast? = some last := by
  have whole := congrArg List.getLast? split
  rw [List.getLast?_concat] at whole
  cases subkeys : key.subkeys with
  | nil => exact absurd subkeys more
  | cons next later =>
    unfold Key.entries at whole
    rw [subkeys, List.getLast?_cons_cons] at whole
    exact whole

theorem keyAt_last {key : Key} (split : key.entries = init ++ [last]) (more : key.subkeys ≠ [])
    (place : List Position) : keyAt place key.subkeys = keyAt place [last] := by
  unfold keyAt
  rw [getLast_subkeys split more]
  rfl

theorem follow_key : follow [.name key.name.text] map = (keyEntry key.name.text map).map fun entry => entry.2.2 := by
  rw [follow_cons, go_name]
  cases keyEntry key.name.text map <;> rfl

theorem flbRaGetKvPair_of_follow {key : Key} {map : Object} (split : key.entries = init ++ [last])
    (found : follow key.path map = some value)
    (usable : key.subkeys ≠ [] → bounded key.subkeys = true ∧ hasName key.subkeys = true) :
    ∃ pair, flbRaGetKvPair key map = some pair ∧ pair.outKey.isSome = last.isName := by
  rw [follow_path, follow_key] at found
  obtain ⟨top, there, onward⟩ := bind_eq_some_iff.mp found
  obtain ⟨entry, present, same⟩ := map_eq_some_iff.mp there
  subst same
  rw [flbRaGetKvPair_eq, present, bind_some]
  by_cases more : key.subkeys = []
  · refine ⟨⟨[.entry entry.1], some [.entry entry.1], entry.2.2⟩, by simp [more], ?_⟩
    have shape : key.entries = [] ++ [.str key.name] := by simp [Key.entries, more]
    rw [shape] at split
    have same := (append_inj' split rfl).2
    cases same
    rfl
  · have container : isContainer entry.2.2 = true := by
      rw [← Bool.not_eq_false]
      intro scalar
      rw [follow_scalar scalar (by simpa using more)] at onward
      cases onward
    obtain ⟨found, located, _⟩ := map_eq_some_iff.mp onward
    simp only [more, container, (usable more).1, (usable more).2, located, decide_false, Bool.not_true, Bool.or_self,
      Bool.false_eq_true, Bool.and_self, ↓reduceIte, map_some]
    refine ⟨_, rfl, ?_⟩
    rw [keyAt_last split more]
    cases last <;> rfl

theorem hasName_of_last {key : Key} {name : Name} (split : key.entries = init ++ [.str name])
    (more : key.subkeys ≠ []) : hasName key.subkeys = true := by
  have member := mem_of_getLast? (getLast_subkeys split more)
  exact any_eq_true.mpr ⟨.str name, member, rfl⟩

structure Agree (key : Key) (map : Object) (str : Bytes) : Prop where
  pair : (flbRaGetKvPair key map).map KvPair.outVal = follow key.path map
  value : (flbRaGetValueObject key map).map RaValue.o = follow key.path map
  equal : flbRaStrcmp key map str = 0 ↔ follow key.path map = some (.str str)
  search : ∀ regex, flbRaRegexMatch key map regex = (follow key.path map).elim (-1) (searchObject regex)

/-- They agree where the accessor leads where its path does, to a value that has a place in
`struct flb_ra_value` and that is equal to the name of the key only if this is `str`. -/
theorem agree_iff (key : Key) (map : Object) (str : Bytes) :
    Agree key map str ↔ Findable key map ∧ ∀ value, follow key.path map = some value →
      (toRaValue value).isSome = true ∧ (value = .str key.name.text ↔ value = .str str) := by
  have whole : Agree key map str ↔ looked key map = follow key.path map ∧
      ((looked key map).bind toRaValue).map RaValue.o = follow key.path map ∧
      ((looked key map).elim (-1) (fun value => msgpackObjectStrcmp value key.name.text) = 0 ↔
        follow key.path map = some (.str str)) ∧
      ∀ regex, (looked key map).elim (-1) (searchObject regex) = (follow key.path map).elim (-1) (searchObject regex) := by
    constructor
    · intro agree
      refine ⟨agree.pair, ?_, ?_, ?_⟩
      · rw [← flbRaGetValueObject_eq]
        exact agree.value
      · rw [← flbRaKeyStrcmp_eq]
        exact agree.equal
      · intro regex
        rw [← flbRaRegexMatch_eq]
        exact agree.search regex
    · rintro ⟨pair, value, equal, search⟩
      refine ⟨pair, ?_, ?_, ?_⟩
      · rw [flbRaGetValueObject_eq]
        exact value
      · unfold flbRaStrcmp
        rw [flbRaKeyStrcmp_eq]
        exact equal
      · intro regex
        rw [flbRaRegexMatch_eq]
        exact search regex
  rw [whole, looked_eq_follow_iff]
  apply and_congr_right
  intro findable
  rw [(looked_eq_follow_iff key map).mpr findable]
  cases follow key.path map with
  | none => simp
  | some value =>
    simp only [elim_some, msgpackObjectStrcmp_iff, Option.some.injEq, implies_true, and_true, forall_eq', bind_some]
    apply and_congr_left
    intro _
    cases given : toRaValue value with
    | none => simp
    | some result => simp [toRaValue_o given]

/-- `flb_ra_strcmp` for `$log` with `x` in `{"log": "x"}`. -/
theorem value_not_compared :
    ¬ Agree ⟨⟨[0x6c, 0x6f, 0x67], by decide⟩, []⟩ (.map [(.str [0x6c, 0x6f, 0x67], .str [0x78])]) [0x78] := by
  intro agree
  have zero := agree.equal.mpr rfl
  revert zero
  decide

end FluentBit.RecordAccessor
