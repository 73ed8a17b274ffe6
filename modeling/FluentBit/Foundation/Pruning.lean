import FluentBit.Foundation.PackerProperties
import FluentBit.Foundation.Paths

/-! Objects without some of their members, which are known by their positions. -/

set_option autoImplicit false

namespace Msgpack

open List Nat Bool Option Function

mutual

def prune (removed : List Position → Bool) : Object → Object
  | .map entries => .map (pruneEntries removed 0 entries)
  | .array items => .array (pruneItems removed 0 items)
  | object => object

def pruneEntries (removed : List Position → Bool) : Nat → List (Object × Object) → List (Object × Object)
  | _, [] => []
  | i, (key, value) :: entries =>
    if removed [.entry i] then pruneEntries removed (i + 1) entries
    else (key, prune (fun place => removed (.entry i :: place)) value) :: pruneEntries removed (i + 1) entries

def pruneItems (removed : List Position → Bool) : Nat → List Object → List Object
  | _, [] => []
  | i, item :: items =>
    if removed [.item i] then pruneItems removed (i + 1) items
    else prune (fun place => removed (.item i :: place)) item :: pruneItems removed (i + 1) items

end

def Covered (removed others : List Position → Bool) : Prop :=
  ∀ place, place ≠ [] → removed place = true → ∃ above, above ≠ [] ∧ above <+: place ∧ others above = true

variable {i : Position} {removed others : List Position → Bool}

theorem Covered.here (covered : Covered removed others) (there : removed [i] = true) : others [i] = true := by
  obtain ⟨above, some, below, other⟩ := covered [i] (by simp) there
  cases above with
  | nil => exact absurd rfl some
  | cons first later =>
    obtain ⟨same, rest⟩ := cons_prefix_cons.mp below
    rw [prefix_nil.mp rest, same] at other
    exact other

theorem Covered.below (covered : Covered removed others) (stays : others [i] = false) :
    Covered (fun place => removed (i :: place)) (fun place => others (i :: place)) := by
  intro place _ there
  obtain ⟨above, some, below, other⟩ := covered (i :: place) (by simp) there
  cases above with
  | nil => exact absurd rfl some
  | cons first later =>
    obtain ⟨same, rest⟩ := cons_prefix_cons.mp below
    subst same
    refine ⟨later, ?_, rest, other⟩
    rintro rfl
    rw [stays] at other
    cases other

theorem Covered.same (forward : Covered removed others) (backward : Covered others removed) (i : Position) :
    removed [i] = others [i] := by
  rw [Bool.eq_iff_iff]
  exact ⟨forward.here, backward.here⟩

/-! ### Induction over the members, and what pruning makes of a list of them -/

theorem Object.of_members {P : Object → Prop}
    (map : ∀ entries : List (Object × Object), (∀ entry ∈ entries, P entry.2) → P (.map entries))
    (array : ∀ items : List Object, (∀ item ∈ items, P item) → P (.array items))
    (leaf : ∀ object : Object, (∀ entries, object = .map entries → False) → (∀ items, object = .array items → False) →
      P object) : ∀ object : Object, P object := by
  apply @Object.rec P (fun items => ∀ item ∈ items, P item) (fun entries => ∀ entry ∈ entries, P entry.2)
    (fun entry => P entry.2)
  case array => exact array
  case map => exact map
  case cons | cons =>
    intro first later here each
    exact forall_mem_cons.mpr ⟨here, each⟩
  case mk =>
    intro key value _ inner
    exact inner
  all_goals
    intros
    first
    | contradiction
    | exact leaf _ (fun _ same => by cases same) (fun _ same => by cases same)

section Lists

variable {α β : Type} {gone others : Nat → Bool} {one two : Nat → α → β} {i : Nat} {members : List α}

def pruneList (gone : Nat → Bool) (one : Nat → α → β) : Nat → List α → List β
  | _, [] => []
  | i, member :: members =>
    if gone i then pruneList gone one (i + 1) members else one i member :: pruneList gone one (i + 1) members

theorem pruneList_congr (same : ∀ i, gone i = others i)
    (inner : ∀ member ∈ members, ∀ i, others i = false → one i member = two i member) :
    pruneList gone one i members = pruneList others two i members := by
  induction members generalizing i with
  | nil => rfl
  | cons member members ih =>
    obtain ⟨first, later⟩ := forall_mem_cons.mp inner
    rw [pruneList, pruneList, ih later, same]
    cases stays : others i with
    | true => rfl
    | false => rw [first i stays]

theorem mem_pruneList {left : β} : left ∈ pruneList gone one i members ↔
      ∃ j member, members[j]? = some member ∧ gone (i + j) = false ∧ left = one (i + j) member := by
  induction members generalizing i with
  | nil => simp [pruneList]
  | cons member members ih =>
    have later : left ∈ pruneList gone one (i + 1) members ↔ ∃ j item, members[j]? = some item ∧
        gone (i + (j + 1)) = false ∧ left = one (i + (j + 1)) item := by
      simp [ih, Nat.add_assoc, Nat.add_comm 1]
    rw [pruneList, ← or_exists_add_one]
    cases stays : gone i <;> simp [later]

theorem length_pruneList_le (more : ∀ i, others i = true → gone i = true) (i : Nat) (members : List α) :
    (pruneList gone one i members).length ≤ (pruneList others two i members).length := by
  induction members generalizing i with
  | nil => exact Nat.le_refl _
  | cons member members ih =>
    have later := ih (i + 1)
    rw [pruneList, pruneList]
    cases goes : others i with
    | true => simpa [more i goes] using later
    | false => cases gone i <;> simp <;> omega

variable {weight : β → Nat}

theorem sum_pruneList_le (more : ∀ i, others i = true → gone i = true)
    (inner : ∀ member ∈ members, ∀ i, weight (one i member) ≤ weight (two i member)) :
    ((pruneList gone one i members).map weight).sum ≤ ((pruneList others two i members).map weight).sum := by
  induction members generalizing i with
  | nil => exact Nat.le_refl _
  | cons member members ih =>
    obtain ⟨first, rest⟩ := forall_mem_cons.mp inner
    have later := @ih (i + 1) rest
    have here := first i
    rw [pruneList, pruneList]
    cases goes : others i with
    | true => simpa [more i goes] using later
    | false => cases gone i <;> simp <;> omega

theorem sum_pruneList_lt (more : ∀ i, others i = true → gone i = true)
    (inner : ∀ member ∈ members, ∀ i, weight (one i member) ≤ weight (two i member)) {j : Nat} {member : α}
    (there : members[j]? = some member) (stays : others (i + j) = false) (positive : 0 < weight (two (i + j) member))
    (less : gone (i + j) = true ∨ weight (one (i + j) member) < weight (two (i + j) member)) :
    ((pruneList gone one i members).map weight).sum < ((pruneList others two i members).map weight).sum := by
  induction members generalizing i j with
  | nil => cases there
  | cons first members ih =>
    obtain ⟨here, each⟩ := forall_mem_cons.mp inner
    rw [pruneList, pruneList]
    cases j with
    | zero =>
      cases there
      rw [Nat.add_zero] at stays less positive
      have later := @sum_pruneList_le _ _ gone others one two (i + 1) members weight more each
      rw [stays]
      cases goes : gone i with
      | true => simp; omega
      | false =>
        have inside := less.resolve_left (by simp [goes])
        simp
        omega
    | succ j =>
      have shift : i + (j + 1) = i + 1 + j := by omega
      rw [shift] at stays less positive
      have rest := ih each there stays positive less
      have inside := here i
      cases goes : others i with
      | true => simpa [more i goes] using rest
      | false => cases gone i <;> simp <;> omega

end Lists

variable {removed others few many : List Position → Bool} {entries : List (Object × Object)} {items : List Object}

theorem pruneEntries_eq (i : Nat) : pruneEntries removed i entries = pruneList (fun i => removed [.entry i])
      (fun i entry => (entry.1, prune (fun place => removed (.entry i :: place)) entry.2)) i entries := by
  induction entries generalizing i with
  | nil => rfl
  | cons entry entries ih => rw [pruneEntries, pruneList, ih]

theorem pruneItems_eq (i : Nat) : pruneItems removed i items = pruneList (fun i => removed [.item i])
      (fun i item => prune (fun place => removed (.item i :: place)) item) i items := by
  induction items generalizing i with
  | nil => rfl
  | cons item items ih => rw [pruneItems, pruneList, ih]

theorem prune_map : prune removed (.map entries) = .map (pruneList (fun i => removed [.entry i])
      (fun i entry => (entry.1, prune (fun place => removed (.entry i :: place)) entry.2)) 0 entries) := by
  rw [prune, pruneEntries_eq]

theorem prune_array : prune removed (.array items) = .array (pruneList (fun i => removed [.item i])
      (fun i item => prune (fun place => removed (.item i :: place)) item) 0 items) := by
  rw [prune, pruneItems_eq]

theorem prune_congr (forward : Covered removed others) (backward : Covered others removed) (object : Object) :
    prune removed object = prune others object := by
  induction object using Object.of_members generalizing removed others with
  | map entries each =>
    rw [prune_map, prune_map]
    congr 1
    apply pruneList_congr fun i => forward.same backward (.entry i)
    intro entry inside i stays
    rw [each entry inside (forward.below stays) (backward.below ((forward.same backward _).trans stays))]
  | array items each =>
    rw [prune_array, prune_array]
    congr 1
    apply pruneList_congr fun i => forward.same backward (.item i)
    intro item inside i stays
    exact each item inside (forward.below stays) (backward.below ((forward.same backward _).trans stays))
  | leaf object noMap noArray => rw [prune.eq_3 _ _ noMap noArray, prune.eq_3 _ _ noMap noArray]

theorem pruneList_none {α : Type} {one : Nat → α → α} {i : Nat} {members : List α}
    (same : ∀ member ∈ members, ∀ i, one i member = member) : pruneList (fun _ => false) one i members = members := by
  induction members generalizing i with
  | nil => rfl
  | cons member members ih =>
    obtain ⟨first, later⟩ := forall_mem_cons.mp same
    simp [pruneList, first, ih later, ↓reduceIte]

theorem prune_none (object : Object) : prune (fun _ => false) object = object := by
  induction object using Object.of_members with
  | map entries each =>
    rw [prune_map, pruneList_none]
    intro entry inside i
    rw [each entry inside]
  | array items each => rw [prune_array, pruneList_none fun item inside _ => each item inside]
  | leaf object noMap noArray => exact prune.eq_3 _ _ noMap noArray

theorem length_pruneList {α β : Type} (gone : Nat → Bool) (one : Nat → α → β) (i : Nat) (members : List α) :
    (pruneList gone one i members).length ≤ members.length := by
  induction members generalizing i with
  | nil => exact Nat.le_refl _
  | cons member members ih =>
    rw [pruneList]
    split
    · exact le_succ_of_le (ih _)
    · exact succ_le_succ (ih _)

theorem length_pruneEntries (i : Nat) : (pruneEntries removed i entries).length ≤ entries.length := by
  rw [pruneEntries_eq]
  exact length_pruneList ..

variable {object : Object}

theorem Packable.prune (packable : Packable object) (removed : List Position → Bool) :
    Packable (prune removed object) := by
  induction packable generalizing removed with
  | @array items few each ih =>
    rw [prune_array]
    refine .array (Nat.lt_of_le_of_lt (length_pruneList ..) few) ?_
    intro item left
    obtain ⟨i, whole, there, _, rfl⟩ := mem_pruneList.mp left
    exact ih whole (mem_of_getElem? there) _
  | @map entries few keys values ihKeys ihValues =>
    rw [prune_map]
    refine .map (Nat.lt_of_le_of_lt (length_pruneList ..) few) ?_ ?_
    · intro entry left
      obtain ⟨i, whole, there, _, rfl⟩ := mem_pruneList.mp left
      exact keys whole (mem_of_getElem? there)
    · intro entry left
      obtain ⟨i, whole, there, _, rfl⟩ := mem_pruneList.mp left
      exact ihValues whole (mem_of_getElem? there) _
  | nil => exact .nil
  | boolean value => exact .boolean value
  | positive u64 => exact .positive u64
  | negative below => exact .negative below
  | float32 bits => exact .float32 bits
  | float64 bits => exact .float64 bits
  | bin short => exact .bin short
  | ext short => exact .ext short
  | str short => exact .str short

/-! ### What pruning takes away -/

mutual

def count (entry item : Nat) : Object → Nat
  | .map entries => countEntries entry item entries
  | .array items => countItems entry item items
  | _ => 0

def countEntries (entry item : Nat) : List (Object × Object) → Nat
  | [] => 0
  | (_, value) :: entries => entry + count entry item value + countEntries entry item entries

def countItems (entry item : Nat) : List Object → Nat
  | [] => 0
  | value :: items => item + count entry item value + countItems entry item items

end

def Member : List Position → Object → Prop
  | [], _ => True
  | .entry i :: place, .map entries => ∃ entry, entries[i]? = some entry ∧ Member place entry.2
  | .item i :: place, .array items => ∃ item, items[i]? = some item ∧ Member place item
  | _ :: _, _ => False

theorem member_of_locate {path : List Step} {object target : Object} {positions : List Position}
    (located : locate path object = some (positions, target)) : Member positions object := by
  induction path generalizing object positions with
  | nil =>
    cases located
    trivial
  | cons step path ih =>
    simp only [locate, bind_eq_some_iff, map_eq_some_iff] at located
    obtain ⟨⟨position, member⟩, goes, ⟨later, found⟩, onward, same⟩ := located
    cases same
    cases goes_of_go goes with
    | name _ there | index there => exact ⟨_, there, ih onward⟩

theorem count_map (entry item : Nat) :
    count entry item (.map entries) = (entries.map fun member => entry + count entry item member.2).sum := by
  rw [count]
  induction entries with
  | nil => rfl
  | cons member entries ih => rw [countEntries, ih, map_cons, sum_cons]

theorem count_array (entry item : Nat) :
    count entry item (.array items) = (items.map fun member => item + count entry item member).sum := by
  rw [count]
  induction items with
  | nil => rfl
  | cons member items ih => rw [countItems, ih, map_cons, sum_cons]

theorem count_prune_le (more : ∀ place, few place = true → many place = true) :
    count 1 1 (prune many object) ≤ count 1 1 (prune few object) := by
  induction object using Object.of_members generalizing few many with
  | map entries each =>
    rw [prune_map, prune_map, count_map, count_map]
    apply sum_pruneList_le fun i => more [.entry i]
    intro entry inside i
    exact Nat.add_le_add_left (each entry inside fun place => more (.entry i :: place)) 1
  | array items each =>
    rw [prune_array, prune_array, count_array, count_array]
    apply sum_pruneList_le fun i => more [.item i]
    intro item inside i
    exact Nat.add_le_add_left (each item inside fun place => more (.item i :: place)) 1
  | leaf object noMap noArray => rw [prune.eq_3 _ _ noMap noArray, prune.eq_3 _ _ noMap noArray]

def Clear (removed : List Position → Bool) (place : List Position) : Prop :=
  ∀ above, above ≠ [] → above <+: place → removed above = false

variable {i : Position} {removed : List Position → Bool} {place : List Position} {j : Nat}

theorem Clear.here (clear : Clear removed (i :: place)) : removed [i] = false :=
  clear [i] (by simp) (cons_prefix_cons.mpr ⟨rfl, nil_prefix⟩)

theorem Clear.below (clear : Clear removed (i :: place)) : Clear (fun below => removed (i :: below)) place :=
  fun above _ within => clear (i :: above) (by simp) (cons_prefix_cons.mpr ⟨rfl, within⟩)

/-- When more is removed, fewer members are left. -/
theorem count_prune_lt (more : ∀ place, few place = true → many place = true) (some : place ≠ [])
    (member : Member place object) (goes : many place = true) (stays : Clear few place) :
    count 1 1 (prune many object) < count 1 1 (prune few object) := by
  induction place generalizing few many object with
  | nil => exact absurd rfl some
  | cons position place ih =>
    have below : ∀ inside, Member place inside → many [position] = true ∨
          count 1 1 (prune (fun place => many (position :: place)) inside) <
            count 1 1 (prune (fun place => few (position :: place)) inside) := by
      intro inside member
      by_cases last : place = []
      · rw [last] at goes
        exact .inl goes
      · exact .inr (ih (fun place => more (position :: place)) last member goes stays.below)
    cases position with
    | entry i =>
      cases object with
      | map entries =>
        obtain ⟨entry, there, inner⟩ := member
        have less := below entry.2 inner
        have here := stays.here
        rw [← Nat.zero_add i] at here less
        rw [prune_map, prune_map, count_map, count_map]
        exact sum_pruneList_lt (fun i => more [.entry i])
          (fun entry _ i => Nat.add_le_add_left (count_prune_le (fun place => more (.entry i :: place))) 1)
          there here (Nat.add_pos_left Nat.one_pos _) (less.imp_right fun fewer => Nat.add_lt_add_left fewer 1)
      | _ => exact member.elim
    | item i =>
      cases object with
      | array items =>
        obtain ⟨item, there, inner⟩ := member
        have less := below item inner
        have here := stays.here
        rw [← Nat.zero_add i] at here less
        rw [prune_array, prune_array, count_array, count_array]
        exact sum_pruneList_lt (fun i => more [.item i])
          (fun item _ i => Nat.add_le_add_left (count_prune_le (fun place => more (.item i :: place))) 1)
          there here (Nat.add_pos_left Nat.one_pos _) (less.imp_right fun fewer => Nat.add_lt_add_left fewer 1)
      | _ => exact member.elim

theorem count_prune_items (items : ∀ place i, removed (place ++ [.item i]) = true) (object : Object) :
    count 0 1 (prune removed object) = 0 := by
  induction object using Object.of_members generalizing removed with
  | map entries each =>
    rw [prune_map, count_map, List.sum_eq_zero_iff_forall_eq_nat, List.forall_mem_map]
    intro entry left
    obtain ⟨i, whole, there, _, rfl⟩ := mem_pruneList.mp left
    rw [Nat.zero_add]
    exact each whole (mem_of_getElem? there) fun place => items (.entry _ :: place)
  | array members each =>
    rw [prune_array, count_array, List.sum_eq_zero_iff_forall_eq_nat, List.forall_mem_map]
    intro item left
    obtain ⟨i, whole, there, stays, rfl⟩ := mem_pruneList.mp left
    exact absurd (items [] _) (eq_false_iff.mp stays)
  | leaf object noMap noArray => rw [prune.eq_3 _ _ noMap noArray, count.eq_3 _ _ _ noMap noArray]

theorem sum_pos_of_mem {α : Type} {weight : α → Nat} {members : List α} {member : α} (inside : member ∈ members)
    (positive : 0 < weight member) : 0 < (members.map weight).sum :=
  List.sum_pos_iff_exists_pos_nat.mpr ⟨_, List.mem_map_of_mem inside, positive⟩

theorem count_prune_item {item : Object} (there : items[j]? = some item) (stays : removed [.item j] = false) :
    0 < count 0 1 (prune removed (.array items)) := by
  rw [prune_array, count_array]
  refine sum_pos_of_mem (mem_pruneList.mpr ⟨j, item, there, ?_, rfl⟩) (Nat.add_pos_left Nat.one_pos _)
  rw [Nat.zero_add]
  exact stays

theorem count_prune_pos {front : List Position} {i : Nat}
    (member : Member (front ++ [.item i]) object) (stays : Clear removed (front ++ [.item i])) :
    0 < count 0 1 (prune removed object) := by
  induction front generalizing removed object with
  | nil =>
    cases object with
    | array items =>
      obtain ⟨item, there, _⟩ := member
      exact count_prune_item there stays.here
    | _ => exact member.elim
  | cons position front ih =>
    cases position with
    | entry j =>
      cases object with
      | map entries =>
        obtain ⟨entry, there, inner⟩ := member
        have below := ih inner stays.below
        have here := stays.here
        rw [← Nat.zero_add j] at here below
        rw [prune_map, count_map]
        exact sum_pos_of_mem (mem_pruneList.mpr ⟨j, entry, there, here, rfl⟩) (Nat.add_pos_right _ below)
      | _ => exact member.elim
    | item j =>
      cases object with
      | array items =>
        obtain ⟨item, there, _⟩ := member
        exact count_prune_item there stays.here
      | _ => exact member.elim

theorem pruneEntries_inj (more : ∀ i, others [.entry i] = true → removed [.entry i] = true) {i : Nat}
    (same : pruneEntries removed i entries = pruneEntries others i entries) {entry : Object × Object}
    (there : entries[j]? = some entry) :
    removed [.entry (i + j)] = others [.entry (i + j)] ∧ (removed [.entry (i + j)] = false →
      prune (fun place => removed (.entry (i + j) :: place)) entry.2 =
        prune (fun place => others (.entry (i + j) :: place)) entry.2) := by
  induction entries generalizing i j with
  | nil => cases there
  | cons first entries ih =>
    obtain ⟨key, value⟩ := first
    have here : removed [.entry i] = others [.entry i] := by
      cases stays : others [.entry i] with
      | true => exact more i stays
      | false =>
        rw [eq_false_iff]
        intro goes
        have short : (pruneEntries removed (i + 1) entries).length ≤ (pruneEntries others (i + 1) entries).length := by
          rw [pruneEntries_eq, pruneEntries_eq]
          exact length_pruneList_le more (i + 1) entries
        rw [pruneEntries, pruneEntries, goes, stays] at same
        simp only [↓reduceIte, false_eq_true] at same
        rw [same] at short
        simp at short
    have rest : pruneEntries removed (i + 1) entries = pruneEntries others (i + 1) entries := by
      rw [pruneEntries, pruneEntries, here] at same
      split at same
      · exact same
      · exact (List.cons.inj same).2
    cases j with
    | zero =>
      cases there
      refine ⟨here, ?_⟩
      intro stays
      rw [Nat.add_zero] at stays
      rw [pruneEntries, pruneEntries, ← here, stays] at same
      exact congrArg Prod.snd (List.cons.inj same).1
    | succ j =>
      have shift : i + (j + 1) = i + 1 + j := by omega
      rw [shift]
      exact ih rest there

/-! ### Heads of 32 bits -/

mutual

def packWide : Object → Bytes
  | .map entries => 0xdf :: store 4 entries.length ++ packWideEntries entries
  | .array items => 0xdd :: store 4 items.length ++ packWideItems items
  | object => pack object

def packWideEntries : List (Object × Object) → Bytes
  | [] => []
  | (key, value) :: entries => pack key ++ packWide value ++ packWideEntries entries

def packWideItems : List Object → Bytes
  | [] => []
  | item :: items => packWide item ++ packWideItems items

end

theorem packWideItems_eq : packWideItems items = items.flatMap packWide := by
  induction items with
  | nil => rfl
  | cons item items ih => rw [packWideItems, ih, flatMap_cons]

theorem packWideEntries_eq :
    packWideEntries entries = entries.flatMap fun entry => pack entry.1 ++ packWide entry.2 := by
  induction entries with
  | nil => rfl
  | cons entry entries ih => rw [packWideEntries, ih, flatMap_cons]

theorem encodes_wide_map {members : List ((Bytes × Object) × Bytes × Object)} (few : members.length < 2 ^ 32)
    (keys : ∀ member ∈ members, Encodes member.1.1 member.1.2)
    (values : ∀ member ∈ members, Encodes member.2.1 member.2.2) :
    Encodes (0xdf :: store 4 members.length ++ members.flatMap fun member => member.1.1 ++ member.2.1)
      (.map (members.map fun member => (member.1.2, member.2.2))) :=
  .map (fixed_store 4 members.length (fun count => Head.container .map count) few) keys values

theorem encodes_wide_array {members : List (Bytes × Object)} (few : members.length < 2 ^ 32)
    (each : ∀ member ∈ members, Encodes member.1 member.2) :
    Encodes (0xdd :: store 4 members.length ++ members.flatMap Prod.fst) (.array (members.map Prod.snd)) :=
  .array (fixed_store 4 members.length (fun count => Head.container .array count) few) each

theorem encodes_packWide (packable : Packable object) : Encodes (packWide object) object := by
  induction packable with
  | @array items few each ih =>
    have members := @encodes_wide_array (items.map fun item => (packWide item, item)) (by simpa using few)
      (forall_mem_map.mpr ih)
    simpa [packWide, packWideItems_eq, flatMap_map, comp_def] using members
  | @map entries few keys values ihKeys ihValues =>
    have members := @encodes_wide_map (entries.map fun entry => ((pack entry.1, entry.1), packWide entry.2, entry.2))
      (by simpa using few) (forall_mem_map.mpr fun entry inside => encodes_pack (keys entry inside))
      (forall_mem_map.mpr ihValues)
    simpa [packWide, packWideEntries_eq, flatMap_map, comp_def] using members
  | nil => exact encodes_pack .nil
  | boolean value => exact encodes_pack (.boolean value)
  | positive u64 => exact encodes_pack (.positive u64)
  | negative below => exact encodes_pack (.negative below)
  | float32 bits => exact encodes_pack (.float32 bits)
  | float64 bits => exact encodes_pack (.float64 bits)
  | bin short => exact encodes_pack (.bin short)
  | ext short => exact encodes_pack (.ext short)
  | str short => exact encodes_pack (.str short)

end Msgpack
