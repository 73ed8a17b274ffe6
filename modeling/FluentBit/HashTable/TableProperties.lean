import FluentBit.Foundation.Keyed
import FluentBit.Foundation.Runs
import FluentBit.HashTable.Table
import Mathlib.Data.List.TakeWhile

/-! A hash table is a finite map: what is linked, what is counted, and what is found. -/

set_option autoImplicit false

namespace FluentBit.HashTable

open List Nat

structure Sound (hash : Key → Nat) (ht : Table) : Prop where
  sized : 0 < ht.table.length
  counted : ∀ table ∈ ht.table, table.count = table.chains.length
  placed : ∀ (id : Nat) (table : Chain), ht.table[id]? = some table →
    ∀ entry ∈ table.chains, entry.table = id ∧ ht.id hash entry.key = id
  distinct : (ht.linked.map Entry.address).Nodup
  fresh : ∀ entry ∈ ht.linked, entry.address < ht.address
  parents : ht.entries.Perm (ht.linked.map Entry.address)
  total : ht.totalCount = ht.linked.length

section

variable {hash : Key → Nat} {ht : Table} {entry : Entry}

theorem Table.mem_linked : entry ∈ ht.linked ↔ ∃ (id : Nat) (table : Chain), ht.table[id]? = some table ∧ entry ∈ table.chains := by
  rw [Table.linked, mem_flatMap]
  constructor
  · rintro ⟨table, member, inside⟩
    obtain ⟨id, found⟩ := mem_iff_getElem?.mp member
    exact ⟨id, table, found, inside⟩
  · rintro ⟨id, table, found, inside⟩
    exact ⟨table, mem_of_getElem? found, inside⟩

theorem Sound.found (sound : Sound hash ht) (member : entry ∈ ht.linked) :
    ∃ table, ht.table[entry.table]? = some table ∧ entry ∈ table.chains ∧ ht.id hash entry.key = entry.table := by
  obtain ⟨id, table, found, inside⟩ := Table.mem_linked.mp member
  obtain ⟨rfl, hashed⟩ := sound.placed id table found entry inside
  exact ⟨table, found, inside, hashed⟩

theorem Sound.eq_of_address (sound : Sound hash ht) {other : Entry} (member : entry ∈ ht.linked)
    (otherMember : other ∈ ht.linked) (same : entry.address = other.address) : entry = other :=
  inj_on_of_nodup_map sound.distinct member otherMember same

variable {table : Chain} {id : Nat}

theorem Table.of_modify {place : Nat} {change : Chain → Chain}
    (found : (ht.table.modify place change)[id]? = some table) :
    (id = place ∧ ∃ old, ht.table[place]? = some old ∧ table = change old) ∨ ht.table[id]? = some table := by
  by_cases here : place = id
  · subst here
    rw [List.getElem?_modify_eq, Option.map_eq_map, Option.map_eq_some_iff] at found
    obtain ⟨old, oldFound, rfl⟩ := found
    exact .inl ⟨rfl, old, oldFound, rfl⟩
  · rw [List.getElem?_modify_ne _ _ here] at found
    exact .inr found

theorem Sound.linked_entryFree (sound : Sound hash ht) (member : entry ∈ ht.linked) :
    (ht.entryFree entry).linked = ht.linked.filter (·.address ≠ entry.address) := by
  obtain ⟨table, found, inside, -⟩ := sound.found member
  obtain ⟨before, first, after, split, position, modified⟩ := exists_of_modify (fun table : Chain =>
      { count := table.count - 1, chains := table.chains.filter (·.address ≠ entry.address) : Chain })
      (List.getElem?_eq_some_iff.mp found).1
  have isTable : first = table := by
    rw [split, ← position, List.getElem?_append_right (Nat.le_refl _), Nat.sub_self] at found
    exact Option.some.inj found
  subst isTable
  have distinct := sound.distinct
  simp only [Table.linked, split, flatMap_append, flatMap_cons, map_append] at distinct
  rw [nodup_append, nodup_append] at distinct
  obtain ⟨-, ⟨-, -, behind⟩, ahead⟩ := distinct
  have here := mem_map_of_mem (f := Entry.address) inside
  -- the entries of the other chains have other addresses
  have keptBefore : (before.flatMap Chain.chains).filter (·.address ≠ entry.address) = before.flatMap Chain.chains := by
    rw [filter_eq_self]
    intro other otherInside
    simpa using ahead _ (mem_map_of_mem otherInside) _ (mem_append_left _ here)
  have keptAfter : (after.flatMap Chain.chains).filter (·.address ≠ entry.address) = after.flatMap Chain.chains := by
    rw [filter_eq_self]
    intro other otherInside
    simpa using (behind _ here _ (mem_map_of_mem otherInside)).symm
  simp only [Table.linked, Table.entryFree, modified]
  rw [split]
  simp only [flatMap_append, flatMap_cons, filter_append, keptBefore, keptAfter]

theorem length_filter_address {entries : List Entry} (distinct : (entries.map Entry.address).Nodup)
    (member : entry ∈ entries) :
    ((entries.filter (·.address ≠ entry.address)).length : Int) = (entries.length : Int) - 1 := by
  have kept := congrArg List.length (List.Nodup.erase_eq_filter distinct entry.address)
  rw [length_erase_of_mem (mem_map_of_mem member), length_map, filter_map, length_map] at kept
  have some := length_pos_of_mem member
  have same : (entries.filter (·.address ≠ entry.address)).length = entries.length - 1 := by
    rw [kept]
    congr 1
    apply filter_congr
    intro other _
    rw [Bool.eq_iff_iff]
    simp
  omega

theorem Sound.entryFree (sound : Sound hash ht) (member : entry ∈ ht.linked) : Sound hash (ht.entryFree entry) := by
  have linked := sound.linked_entryFree member
  have size : (ht.entryFree entry).table.length = ht.table.length := length_modify ..
  obtain ⟨home, found, inside, -⟩ := sound.found member
  constructor
  · rw [size]
    exact sound.sized
  · intro table tableMember
    obtain ⟨id, tableFound⟩ := mem_iff_getElem?.mp tableMember
    cases Table.of_modify tableFound with
    | inl changed =>
      obtain ⟨rfl, old, oldFound, rfl⟩ := changed
      rw [found] at oldFound
      cases oldFound
      have inPart : (home.chains.map Entry.address).Nodup := by
        have distinct := sound.distinct
        rw [Table.linked, map_flatMap, nodup_flatMap] at distinct
        exact distinct.1 home (mem_of_getElem? found)
      simp only [sound.counted home (mem_of_getElem? found)]
      exact (length_filter_address inPart inside).symm
    | inr unchanged => exact sound.counted table (mem_of_getElem? unchanged)
  · intro id table tableFound other otherInside
    simp only [Table.id, size]
    cases Table.of_modify tableFound with
    | inl changed =>
      obtain ⟨rfl, old, oldFound, rfl⟩ := changed
      exact sound.placed _ old oldFound other (mem_of_mem_filter otherInside)
    | inr unchanged => exact sound.placed id table unchanged other otherInside
  · rw [linked]
    exact sound.distinct.sublist (filter_sublist.map _)
  · intro other otherMember
    rw [linked] at otherMember
    exact sound.fresh other (mem_of_mem_filter otherMember)
  · rw [linked]
    have parents := sound.parents.filter (fun address => decide (address ≠ entry.address))
    rw [filter_map] at parents
    exact parents
  · rw [linked, length_filter_address sound.distinct member, ← sound.total]
    rfl

theorem Table.linked_write (change : Entry → Entry) : (ht.write entry change).linked =
      ht.linked.map fun other => if other.address = entry.address then change other else other := by
  simp [Table.linked, Table.write, flatMap_map, map_flatMap]

theorem Sound.write (sound : Sound hash ht) (entry : Entry) (change : Entry → Entry)
    (same : ∀ other, (change other).address = other.address ∧ (change other).key = other.key ∧
      (change other).table = other.table) : Sound hash (ht.write entry change) := by
  have addresses : (ht.write entry change).linked.map Entry.address = ht.linked.map Entry.address := by
    rw [Table.linked_write, map_map]
    apply map_congr_left
    intro other _
    simp only [Function.comp]
    split
    · exact (same other).1
    · rfl
  have size : (ht.write entry change).table.length = ht.table.length := length_map ..
  constructor
  · rw [size]
    exact sound.sized
  · intro table member
    obtain ⟨old, oldMember, rfl⟩ := mem_map.mp member
    simp only [length_map]
    exact sound.counted old oldMember
  · intro id table found other inside
    simp only [Table.write, List.getElem?_map, Option.map_eq_some_iff] at found
    obtain ⟨old, oldFound, rfl⟩ := found
    obtain ⟨origin, originInside, rfl⟩ := mem_map.mp inside
    have placed := sound.placed id old oldFound origin originInside
    simp only [Table.id, size] at placed ⊢
    split
    · rw [(same origin).2.1, (same origin).2.2]; exact placed
    · exact placed
  · rw [addresses]
    exact sound.distinct
  · intro other member
    have := mem_map_of_mem (f := Entry.address) member
    rw [addresses] at this
    obtain ⟨origin, originMember, origins⟩ := mem_map.mp this
    rw [← origins]
    exact sound.fresh origin originMember
  · rw [addresses]
    exact sound.parents
  · rw [Table.linked_write, length_map]
    exact sound.total

theorem Table.linked_link (inside : entry.table < ht.table.length) :
    (ht.link entry).linked.Perm (ht.linked ++ [entry]) := by
  obtain ⟨before, table, after, split, -, modified⟩ :=
    exists_of_modify (fun table : Chain => { count := table.count + 1, chains := table.chains ++ [entry] : Chain })
      inside
  simp only [Table.linked, Table.link, modified]
  rw [split]
  simp only [flatMap_append, flatMap_cons, append_assoc]
  apply List.Perm.append_left
  apply List.Perm.append_left
  exact perm_append_comm

theorem Sound.link (sound : Sound hash ht) (new : entry.address = ht.address)
    (hashed : entry.table = ht.id hash entry.key) : Sound hash (ht.link entry) := by
  have inside : entry.table < ht.table.length := by
    rw [hashed]
    exact mod_lt _ sound.sized
  have linked := Table.linked_link inside
  have size : (ht.link entry).table.length = ht.table.length := length_modify ..
  have addresses := linked.map Entry.address
  rw [map_append] at addresses
  constructor
  · rw [size]
    exact sound.sized
  · intro table member
    obtain ⟨id, found⟩ := mem_iff_getElem?.mp member
    cases Table.of_modify found with
    | inl changed =>
      obtain ⟨rfl, old, oldFound, rfl⟩ := changed
      simp [sound.counted old (mem_of_getElem? oldFound)]
    | inr unchanged => exact sound.counted table (mem_of_getElem? unchanged)
  · intro id table found other otherInside
    simp only [Table.id, size]
    cases Table.of_modify found with
    | inl changed =>
      obtain ⟨rfl, old, oldFound, rfl⟩ := changed
      rw [mem_append, mem_singleton] at otherInside
      cases otherInside with
      | inl earlier => exact sound.placed _ old oldFound other earlier
      | inr last =>
        rw [last]
        exact ⟨rfl, hashed.symm⟩
    | inr unchanged => exact sound.placed id table unchanged other otherInside
  · rw [addresses.nodup_iff, nodup_append]
    refine ⟨sound.distinct, nodup_singleton _, ?_⟩
    intro address earlier last lastMember
    obtain ⟨other, otherMember, rfl⟩ := mem_map.mp earlier
    have older := sound.fresh other otherMember
    rw [mem_singleton.mp lastMember, new]
    omega
  · intro other member
    have fresh : (ht.link entry).address = ht.address + 1 := rfl
    rw [linked.mem_iff, mem_append, mem_singleton] at member
    cases member with
    | inl earlier =>
      have older := sound.fresh other earlier
      omega
    | inr last => rw [last, new, fresh]; omega
  · exact (sound.parents.append_right _).trans addresses.symm
  · have total : (ht.link entry).totalCount = ht.totalCount + 1 := rfl
    rw [total, linked.length_eq, length_append, sound.total]
    rfl

theorem Chain.search_eq_find (counted : table.count = table.chains.length) (fits : Entry → Bool) :
    table.search fits = table.chains.find? fits := by
  unfold Chain.search
  split
  next one =>
    have single : table.chains.length = 1 := by omega
    obtain ⟨entry, only⟩ := length_eq_one_iff.mp single
    simp [only, Option.filter_some]
  · rfl

section

variable (sound : Sound hash ht)
include sound

theorem Sound.search (key : Key) (fits : Entry → Bool)
    (fitting : ∀ entry ∈ ht.linked, fits entry = true ↔ entry.key = key) :
    ∃ table, ht.table[ht.id hash key]? = some table ∧ table.count = table.chains.length ∧
      (∀ entry, table.search fits = some entry → entry ∈ ht.linked ∧ entry.key = key) ∧
      (table.search fits = none → ∀ entry ∈ ht.linked, entry.key ≠ key) := by
  have inside : ht.id hash key < ht.table.length := mod_lt _ sound.sized
  have found := List.getElem?_eq_getElem inside
  have counted := sound.counted _ (getElem_mem inside)
  refine ⟨_, found, counted, ?_⟩
  rw [Chain.search_eq_find counted]
  constructor
  · intro entry searched
    have member : entry ∈ ht.linked := Table.mem_linked.mpr ⟨_, _, found, mem_of_find?_eq_some searched⟩
    exact ⟨member, (fitting entry member).mp (List.find?_some searched)⟩
  · intro missing entry member named
    obtain ⟨table, tableFound, entryInside, hashed⟩ := sound.found member
    rw [← hashed, named, found] at tableFound
    cases tableFound
    exact List.find?_eq_none.mp missing entry entryInside ((fitting entry member).mpr named)

theorem Sound.search_mem {fits : Entry → Bool} (found : ht.table[id]? = some table)
    (searched : table.search fits = some entry) : entry ∈ ht.linked := by
  rw [Chain.search_eq_find (sound.counted table (mem_of_getElem? found))] at searched
  exact Table.mem_linked.mpr ⟨id, table, found, mem_of_find?_eq_some searched⟩

theorem Sound.hashGetEntry_mem {key : Key} (searched : ht.hashGetEntry hash key = some entry) : entry ∈ ht.linked := by
  unfold Table.hashGetEntry at searched
  split at searched
  · cases searched
  · split at searched
    · cases searched
    next table found =>
      split at searched
      · cases searched
      · exact sound.search_mem found searched

theorem Sound.freeAt (address : Option Nat) : Sound hash (ht.freeAt address) := by
  unfold Table.freeAt
  split
  · exact sound
  next entry found =>
    obtain ⟨address, -, searched⟩ := Option.bind_eq_some_iff.mp found
    exact sound.entryFree (mem_of_find?_eq_some searched)

theorem Sound.makeRoom (random : Nat) : Sound hash (ht.makeRoom random) := by
  unfold Table.makeRoom
  split
  · split
    · exact sound
    · exact sound.freeAt _
    · exact sound.freeAt _
    · exact sound.freeAt _
  · exact sound

theorem Sound.step (op : Op) : Sound hash (step hash op ht) := by
  cases op with
  | add key val content now random =>
    simp only [HashTable.step, Table.add]
    split
    · exact sound
    · have room := sound.makeRoom random
      split
      next entry searched => exact room.write entry _ fun _ => ⟨rfl, rfl, rfl⟩
      · exact room.link rfl rfl
  | get key now =>
    simp only [HashTable.step, Table.get]
    split
    · exact sound
    next entry searched =>
      split
      · exact sound.entryFree (sound.hashGetEntry_mem searched)
      · exact sound.write entry _ fun _ => ⟨rfl, rfl, rfl⟩
  | getPtr key =>
    simp only [HashTable.step, Table.getPtr]
    split
    · exact sound
    next entry searched => exact sound.write entry _ fun _ => ⟨rfl, rfl, rfl⟩
  | del key =>
    simp only [HashTable.step, Table.del]
    split
    · exact sound
    · split
      · exact sound
      next entry searched =>
        obtain ⟨table, found, inChain⟩ := Option.bind_eq_some_iff.mp searched
        exact sound.entryFree (sound.search_mem found inChain)

end

end

def ValidKey (key : Key) : Prop := key ≠ [] ∧ 0 ∉ key

theorem cString_of_valid {key : Key} (valid : ValidKey key) : cString key = key := by
  unfold cString
  rw [takeWhile_eq_self_iff]
  intro byte member
  simp only [ne_eq, decide_eq_true_eq]
  rintro rfl
  exact valid.2 member

variable {left right : Key}

theorem strncmpEq_of_valid (leftValid : ValidKey left) (rightValid : ValidKey right) :
    (left.length = right.length ∧ strncmpEq left right right.length) ↔ left = right := by
  unfold strncmpEq
  rw [cString_of_valid leftValid, cString_of_valid rightValid, decide_eq_true_eq]
  constructor
  · rintro ⟨same, equal⟩
    rwa [← same, take_length, same, take_length] at equal
  · rintro rfl
    exact ⟨rfl, rfl⟩

theorem strcmpEq_of_valid (leftValid : ValidKey left) (rightValid : ValidKey right) :
    strcmpEq left right ↔ left = right := by
  unfold strcmpEq
  rw [cString_of_valid leftValid, cString_of_valid rightValid, decide_eq_true_eq]

/-! ### The finite map -/

def Op.key : Op → Key
  | .add key _ _ _ _ | .get key _ | .getPtr key | .del key => key

def Op.apply (op : Op) (content : Key → Option Value) : Key → Option Value :=
  match op with
  | .add key val bytes _ _ =>
    Function.update content key (some (if 0 < bytes.length then .copy bytes else .reference val))
  | .del key => Function.update content key none
  | .get _ _ | .getPtr _ => content

def lastAdded (ops : List Op) : Key → Option Value := ops.foldl (fun content op => op.apply content) fun _ => none

def Keeps (ht : Table) : Prop := (ht.maxEntries ≤ 0 ∨ ht.evictMode = .none) ∧ ht.cacheTtl ≤ 0

structure Represents (hash : Key → Nat) (ht : Table) (content : Key → Option Value) : Prop where
  sound : Sound hash ht
  keeps : Keeps ht
  valid : ∀ entry ∈ ht.linked, ValidKey entry.key
  holds : Keyed.Holds Entry.key Entry.val ht.linked content

section

variable {hash : Key → Nat} {ht : Table} {content : Key → Option Value} {key : Key}

section

variable (represents : Represents hash ht content)
include represents

theorem Represents.hashGetEntry (valid : ValidKey key) :
    (∀ entry, ht.hashGetEntry hash key = some entry → entry ∈ ht.linked ∧ entry.key = key) ∧
      (ht.hashGetEntry hash key = none → ∀ entry ∈ ht.linked, entry.key ≠ key) := by
  obtain ⟨table, found, counted, present, absent⟩ := represents.sound.search key
    (fun entry => entry.key.length = key.length ∧ strncmpEq entry.key key key.length) (by
      intro entry member
      rw [decide_eq_true_eq]
      exact strncmpEq_of_valid (represents.valid entry member) valid)
  have nonempty : key.length ≠ 0 := fun empty => valid.1 (length_eq_zero_iff.mp empty)
  simp only [Table.hashGetEntry, nonempty, if_false, found]
  split
  next zero =>
    refine ⟨fun entry searched => (nomatch searched), fun _ => absent ?_⟩
    rw [Chain.search_eq_find counted, length_eq_zero_iff.mp (by omega : table.chains.length = 0)]
    rfl
  · exact ⟨present, absent⟩

theorem Represents.lookup (valid : ValidKey key) : (ht.hashGetEntry hash key).map Entry.val = content key := by
  obtain ⟨present, absent⟩ := represents.hashGetEntry valid
  cases searched : ht.hashGetEntry hash key with
  | none => exact (represents.holds.eq_none (absent searched)).symm
  | some entry =>
    obtain ⟨member, rfl⟩ := present entry searched
    exact (represents.holds.of_mem member).symm

theorem Represents.makeRoom (random : Nat) : ht.makeRoom random = ht := by
  unfold Table.makeRoom
  split
  next full =>
    cases represents.keeps.1 with
    | inl unlimited => omega
    | inr kept => rw [kept]
  · rfl

theorem Represents.hit (entry : Entry) : Represents hash (ht.hit entry) content where
  sound := represents.sound.write entry _ fun _ => ⟨rfl, rfl, rfl⟩
  keeps := represents.keeps
  valid := by
    intro other member
    rw [Table.hit, Table.linked_write] at member
    obtain ⟨origin, originMember, rfl⟩ := mem_map.mp member
    have := represents.valid origin originMember
    split
    all_goals exact this
  holds := by
    rw [Table.hit, Table.linked_write]
    apply represents.holds.map
    · intro other _
      split
      all_goals rfl
    · intro other _
      split
      all_goals rfl

end

variable {entry : Entry}

section

variable (represents : Represents hash ht content)
include represents

theorem Represents.entryFree (member : entry ∈ ht.linked) :
    Represents hash (ht.entryFree entry) (Function.update content entry.key none) where
  sound := represents.sound.entryFree member
  keeps := represents.keeps
  valid := by
    intro other otherMember
    rw [represents.sound.linked_entryFree member] at otherMember
    exact represents.valid other (mem_of_mem_filter otherMember)
  holds := by
    rw [represents.sound.linked_entryFree member]
    apply represents.holds.remove
    intro other otherMember
    simp only [ne_eq, decide_eq_true_eq]
    constructor
    · intro apart sameKey
      exact apart (congrArg Entry.address (represents.holds.eq_of_key otherMember member sameKey))
    · intro apart sameAddress
      exact apart (congrArg Entry.key (represents.sound.eq_of_address otherMember member sameAddress))

theorem Represents.setValue (member : entry ∈ ht.linked) (val : Nat) (bytes : Bytes) (now : Int) :
    Represents hash (ht.write entry fun entry => entry.setValue val bytes now)
      (Function.update content entry.key (some (if 0 < bytes.length then .copy bytes else .reference val))) where
  sound := represents.sound.write entry _ fun _ => ⟨rfl, rfl, rfl⟩
  keeps := represents.keeps
  valid := by
    intro other otherMember
    rw [Table.linked_write] at otherMember
    obtain ⟨origin, originMember, rfl⟩ := mem_map.mp otherMember
    have := represents.valid origin originMember
    split
    all_goals exact this
  holds := by
    have set := represents.holds.set member
      (fun other => if other.address = entry.address then other.setValue val bytes now else other)
      (by
        intro other _
        split
        all_goals rfl)
      (by
        intro other otherMember apart
        rw [if_neg]
        intro sameAddress
        exact apart (congrArg Entry.key (represents.sound.eq_of_address otherMember member sameAddress)))
    rw [Table.linked_write]
    rw [if_pos rfl] at set
    exact set

theorem Represents.link (entry : Entry) (new : entry.address = ht.address)
    (hashed : entry.table = ht.id hash entry.key) (valid : ValidKey entry.key)
    (absent : ∀ other ∈ ht.linked, other.key ≠ entry.key) :
    Represents hash (ht.link entry) (Function.update content entry.key (some entry.val)) := by
  have inside : entry.table < ht.table.length := by
    rw [hashed]
    exact mod_lt _ represents.sound.sized
  have linked := Table.linked_link inside
  constructor
  · exact represents.sound.link new hashed
  · exact represents.keeps
  · intro other member
    rw [linked.mem_iff, mem_append, mem_singleton] at member
    cases member with
    | inl earlier => exact represents.valid other earlier
    | inr last => rw [last]; exact valid
  · exact (represents.holds.add entry absent).perm linked

end

theorem Represents.add (represents : Represents hash ht content) (valid : ValidKey key) (val : Nat) (bytes : Bytes)
    (now : Int) (random : Nat) : Represents hash (ht.add hash key val bytes now random).1
      (Function.update content key (some (if 0 < bytes.length then .copy bytes else .reference val))) := by
  obtain ⟨present, absent⟩ := represents.hashGetEntry valid
  have nonempty : key.length ≠ 0 := fun empty => valid.1 (length_eq_zero_iff.mp empty)
  simp only [Table.add, nonempty, if_false, represents.makeRoom]
  cases searched : ht.hashGetEntry hash key with
  | some entry =>
    obtain ⟨member, rfl⟩ := present entry searched
    exact represents.setValue member val bytes now
  | none => exact represents.link _ rfl rfl valid (absent searched)

section

variable (represents : Represents hash ht content)
include represents

theorem Represents.get (valid : ValidKey key) (now : Int) : Represents hash (ht.get hash key now).1 content ∧
      (ht.get hash key now).2 = (content key).map fun value => (ht.id hash key, value, value.size) := by
  rw [← represents.lookup valid]
  unfold Table.get
  cases ht.hashGetEntry hash key with
  | none => exact ⟨represents, rfl⟩
  | some entry =>
    have expires := represents.keeps.2
    simp only [show ¬ (0 < ht.cacheTtl ∧ entry.created + ht.cacheTtl < now) by omega, if_false]
    exact ⟨represents.hit entry, rfl⟩

theorem Represents.getPtr (valid : ValidKey key) :
    Represents hash (ht.getPtr hash key).1 content ∧ (ht.getPtr hash key).2 = (content key).getD (.reference 0) := by
  rw [← represents.lookup valid]
  unfold Table.getPtr
  cases ht.hashGetEntry hash key with
  | none => exact ⟨represents, rfl⟩
  | some entry => exact ⟨represents.hit entry, rfl⟩

theorem Represents.del (valid : ValidKey key) :
    Represents hash (ht.del hash key).1 (Function.update content key none) := by
  obtain ⟨table, found, -, present, absent⟩ := represents.sound.search key (fun entry => strcmpEq entry.key key) (by
      intro entry member
      exact strcmpEq_of_valid (represents.valid entry member) valid)
  have nonempty : key.length ≠ 0 := fun empty => valid.1 (length_eq_zero_iff.mp empty)
  simp only [Table.del, cString_of_valid valid, nonempty, if_false, found, Option.bind_some]
  cases searched : table.search fun entry => strcmpEq entry.key key with
  | none =>
    have unset := represents.holds.eq_none (absent searched)
    rw [← unset, Function.update_eq_self]
    exact represents
  | some entry =>
    obtain ⟨member, rfl⟩ := present entry searched
    exact represents.entryFree member

/-- An operation on the table does to the map what it is for. -/
theorem Represents.step (op : Op) (valid : ValidKey op.key) : Represents hash (step hash op ht) (op.apply content) := by
  cases op with
  | add key val bytes now random => exact represents.add valid val bytes now random
  | get key now => exact (represents.get valid now).1
  | getPtr key => exact (represents.getPtr valid).1
  | del key => exact represents.del valid

end

theorem Represents.run (represents : Represents hash ht content) (ops : List Op) (valid : ∀ op ∈ ops, ValidKey op.key) :
    Represents hash (Runs.after (HashTable.step hash) ht ops) (ops.foldl (fun content op => op.apply content) content) := by
  induction ops generalizing ht content with
  | nil => exact represents
  | cons op rest ih =>
    exact ih (represents.step op (valid op mem_cons_self)) fun later member =>
      valid later (mem_cons_of_mem _ member)

end

theorem linked_create (evictMode : EvictMode) (size : Nat) (maxEntries : Int) :
    (create evictMode size maxEntries).linked = [] := by
  simp [create, Table.linked]

variable {size : Nat}

theorem sound_create (hash : Key → Nat) (ttl : Int) (evictMode : EvictMode) (maxEntries : Int) (nonempty : 0 < size) :
    Sound hash (createWithTtl ttl evictMode size maxEntries) := by
  have linked : (createWithTtl ttl evictMode size maxEntries).linked = [] := linked_create evictMode size maxEntries
  constructor
  · simpa [createWithTtl, create] using nonempty
  · intro table member
    rw [eq_of_mem_replicate member]
    rfl
  · intro id table found entry inside
    rw [eq_of_mem_replicate (mem_of_getElem? found)] at inside
    cases inside
  · rw [linked]
    exact nodup_nil
  · rw [linked]
    intro entry member
    cases member
  · rw [linked]
    exact List.Perm.refl []
  · rw [linked]
    rfl

/-- With any limit, eviction and time to live, an entry is linked once, in the chain of its key,
and the list and the counts are those of the entries that are linked. -/
theorem lists_agree (hash : Key → Nat) (ttl : Int) (evictMode : EvictMode) (size : Nat) (maxEntries : Int)
    (ops : List Op) : let ht := Runs.after (step hash) (createWithTtl ttl evictMode (size + 1) maxEntries) ops
    (ht.linked.map Entry.address).Nodup ∧ ht.entries.Perm (ht.linked.map Entry.address) ∧
      ht.totalCount = ht.linked.length ∧ ∀ (id : Nat) (table : Chain), ht.table[id]? = some table →
        table.count = table.chains.length ∧ ∀ entry ∈ table.chains, ht.id hash entry.key = id := by
  intro ht
  have sound : Sound hash ht := (Runs.reached (step hash) _ ops).invariant (Sound hash)
    (sound_create hash ttl evictMode maxEntries size.succ_pos) fun _ op sound _ => sound.step op
  exact ⟨sound.distinct, sound.parents, sound.total, fun id table found =>
    ⟨sound.counted table (mem_of_getElem? found), fun entry member => (sound.placed id table found entry member).2⟩⟩

theorem represents_create (hash : Key → Nat) {ttl : Int} {evictMode : EvictMode} {maxEntries : Int}
    (nonempty : 0 < size) (unlimited : maxEntries ≤ 0 ∨ evictMode = .none) (untimed : ttl ≤ 0) :
    Represents hash (createWithTtl ttl evictMode size maxEntries) fun _ => none := by
  have linked : (createWithTtl ttl evictMode size maxEntries).linked = [] := linked_create evictMode size maxEntries
  constructor
  · exact sound_create hash ttl evictMode maxEntries nonempty
  · exact ⟨unlimited, untimed⟩
  · rw [linked]
    intro entry member
    cases member
  · rw [linked]
    exact .nil

/-- A table with neither a limit that evicts nor a time to live is a finite map under every
sequence of calls, and its counts are those of the entries that are linked. -/
theorem table_refines_map (hash : Key → Nat) (ttl : Int) (evictMode : EvictMode) (size : Nat) (maxEntries : Int)
    (nonempty : 0 < size) (unlimited : maxEntries ≤ 0 ∨ evictMode = .none) (untimed : ttl ≤ 0) (ops : List Op)
    (validOps : ∀ op ∈ ops, ValidKey op.key) :
    let ht := Runs.after (step hash) (createWithTtl ttl evictMode size maxEntries) ops
    (∀ (key : Key) (now : Int), ValidKey key →
      (ht.get hash key now).2 = (lastAdded ops key).map fun value => (ht.id hash key, value, value.size)) ∧
    (∀ key : Key, ValidKey key → (ht.getPtr hash key).2 = (lastAdded ops key).getD (.reference 0)) ∧
    ht.totalCount = ht.linked.length ∧ ht.totalCount = ht.entries.length ∧
    ∀ table ∈ ht.table, table.count = table.chains.length := by
  intro ht
  have represents := (represents_create hash nonempty unlimited untimed).run ops validOps
  have sound := represents.sound
  refine ⟨fun key now valid => (represents.get valid now).2, fun key valid => (represents.getPtr valid).2, sound.total,
    ?_, sound.counted⟩
  rw [sound.parents.length_eq, length_map]
  exact sound.total

/-- Two keys that collide in a table of one chain, one of them replaced and the other deleted. -/
theorem table_refines_map_collision : ((Runs.after (step fun _ => 0) (createWithTtl 0 .none 1 1)
      [.add [97] 0 [1] 0 0, .add [98] 7 [] 0 0, .add [97] 0 [2] 0 0, .del [98]]).get (fun _ => 0) [97] 0).2 =
      some (0, .copy [2], 1) :=
  (table_refines_map (fun _ => 0) 0 .none 1 1 (by decide) (by decide) (by decide)
    [.add [97] 0 [1] 0 0, .add [98] 7 [] 0 0, .add [97] 0 [2] 0 0, .del [98]]
    (by simp [ValidKey, Op.key])).1 [97] 0 (by simp [ValidKey])

end FluentBit.HashTable
