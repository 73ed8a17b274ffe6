import FluentBit.HashTable.TableProperties

/-! Which entry a call by key and value, or by chain and key, takes. -/

set_option autoImplicit false

namespace FluentBit.HashTable

open List Option

def Chain.RightFirst (table : Chain) (fits right : Entry → Prop) : Prop :=
  ∀ before entry after, table.chains = before ++ entry :: after → fits entry → ¬ right entry →
    ∃ other ∈ before, right other

theorem Chain.rightFirst_iff (table : Chain) (fits : Entry → Bool) (right : Entry → Prop)
    (fitting : ∀ entry, right entry → fits entry = true) :
    table.RightFirst (fits · = true) right ↔ ∀ entry, table.chains.find? fits = some entry → right entry := by
  constructor
  · intro first entry found
    obtain ⟨fitsEntry, before, after, split, unfit⟩ := List.find?_eq_some_iff_append.mp found
    by_contra wrong
    obtain ⟨other, inside, isRight⟩ := first before entry after split fitsEntry wrong
    have unfitting := unfit other inside
    rw [fitting other isRight] at unfitting
    cases unfitting
  · intro taken before entry after split fitsEntry wrong
    cases found : before.find? fits with
    | some other =>
      refine ⟨other, mem_of_find?_eq_some found, taken other ?_⟩
      rw [split, List.find?_append, found]
      rfl
    | none =>
      refine absurd (taken entry ?_) wrong
      rw [split, List.find?_append, found, List.find?_cons, fitsEntry]
      rfl

section

variable {hash : Key → Nat} {ht : Table}

theorem Sound.chain (sound : Sound hash ht) (key : Key) : ∃ table, ht.table[ht.id hash key]? = some table :=
  ⟨_, List.getElem?_eq_getElem (Nat.mod_lt _ sound.sized)⟩

theorem Table.delPtrEntry_mem {heap : Nat → Nat} {key : Key} {ptr : Nat} {entry : Entry}
    (taken : ht.delPtrEntry hash heap key ptr = some entry) : entry ∈ ht.linked := by
  obtain ⟨table, found, searched⟩ := bind_eq_some_iff.mp taken
  exact Table.mem_linked.mpr ⟨_, table, found, mem_of_find?_eq_some searched⟩

theorem Sound.delPtr_removes (sound : Sound hash ht) (heap : Nat → Nat) (key : Key) (ptr : Nat) (entry : Entry) :
    (entry ∈ ht.linked ∧ entry ∉ (ht.delPtr hash heap key ptr).1.linked) ↔
      ht.delPtrEntry hash heap key ptr = some entry := by
  unfold Table.delPtr
  cases taken : ht.delPtrEntry hash heap key ptr with
  | none =>
    constructor
    · intro removed
      exact absurd removed.1 removed.2
    · intro impossible
      cases impossible
  | some first =>
    have member := Table.delPtrEntry_mem taken
    simp only [sound.linked_entryFree member, mem_filter, not_and, Option.some.injEq]
    constructor
    · rintro ⟨inside, removed⟩
      have same := removed inside
      simp only [ne_eq, decide_not, Bool.not_eq_true', decide_eq_false_iff_not, not_not] at same
      exact sound.eq_of_address member inside same.symm
    · rintro rfl
      exact ⟨member, by simp⟩

def DelPtrExact (hash : Key → Nat) (ht : Table) (heap : Nat → Nat) (key : Key) (ptr : Nat) : Prop :=
  ∀ entry, entry ∈ ht.linked → entry ∉ (ht.delPtr hash heap key ptr).1.linked →
    entry.key = key ∧ entry.pointer heap = ptr

/-- An entry with the pointer, whose key begins with the key or agrees with it up to a zero
byte, comes after one that has the key itself. -/
def DelPtrClear (hash : Key → Nat) (ht : Table) (heap : Nat → Nat) (key : Key) (ptr : Nat) : Prop :=
  ∀ table, ht.table[ht.id hash key]? = some table →
    table.RightFirst (fun entry => strncmpEq entry.key key key.length = true ∧ entry.pointer heap = ptr)
      fun entry => entry.key = key ∧ entry.pointer heap = ptr

theorem Sound.delPtrExact_iff (sound : Sound hash ht) (heap : Nat → Nat) (key : Key) (ptr : Nat) :
    DelPtrExact hash ht heap key ptr ↔ DelPtrClear hash ht heap key ptr := by
  obtain ⟨table, found⟩ := sound.chain key
  have first := table.rightFirst_iff (fun entry => strncmpEq entry.key key key.length ∧ entry.pointer heap = ptr)
    (fun entry => entry.key = key ∧ entry.pointer heap = ptr) (by
      rintro entry ⟨named, valued⟩
      simp [named, valued, strncmpEq])
  simp only [decide_eq_true_eq] at first
  have removes := sound.delPtr_removes heap key ptr
  simp only [Table.delPtrEntry, found, bind_some] at removes
  simp only [DelPtrClear, found, Option.some.injEq, forall_eq', first, ← removes]
  constructor
  · intro exact entry removed
    exact exact entry removed.1 removed.2
  · intro exact entry inside removed
    exact exact entry ⟨inside, removed⟩

def GetByIdExact (ht : Table) (id : Int) (key : Key) : Prop :=
  ∀ entry, ht.getByIdEntry id key = some entry → entry ∈ ht.linked ∧ entry.key = cString key

/-- An entry that is alone in its chain has the key, and one whose key agrees with it up to a
zero byte comes after one that has the key itself. -/
def GetByIdClear (ht : Table) (id : Int) (key : Key) : Prop :=
  0 ≤ id → ∀ table, ht.table[id.toNat]? = some table →
    table.RightFirst (fun entry => table.chains.length = 1 ∨ strcmpEq entry.key key = true)
      fun entry => entry.key = cString key

theorem cString_cString (key : Key) : cString (cString key) = cString key :=
  takeWhile_takeWhile .. |>.trans (by simp [cString])

theorem strcmpEq_of_eq {left key : Key} (named : left = cString key) : strcmpEq left key = true := by
  simp [strcmpEq, named, cString_cString]

theorem Table.getByIdEntry_eq {id : Int} {key : Key} {table : Chain} (inside : 0 ≤ id)
    (found : ht.table[id.toNat]? = some table) (counted : table.count = table.chains.length) : ht.getByIdEntry id key =
      table.chains.find? fun entry => table.chains.length = 1 ∨ strcmpEq entry.key key = true := by
  have bound := (List.getElem?_eq_some_iff.mp found).1
  have inRange : ¬ (id < 0 ∨ (ht.table.length : Int) ≤ id) := by omega
  simp only [Table.getByIdEntry, if_neg inRange, found, bind_some]
  cases chained : table.chains with
  | nil => simp [counted, chained]
  | cons first rest =>
    cases rest with
    | nil => simp [counted, chained]
    | cons second rest =>
      have many : table.count ≠ 0 ∧ table.count ≠ 1 := by
        rw [counted, chained]
        simp only [length_cons]
        omega
      simp [many.1, many.2]

theorem Sound.getByIdExact_iff (sound : Sound hash ht) (id : Int) (key : Key) :
    GetByIdExact ht id key ↔ GetByIdClear ht id key := by
  by_cases inRange : id < 0 ∨ (ht.table.length : Int) ≤ id
  · constructor
    · intro _ inside table found
      have bound := (List.getElem?_eq_some_iff.mp found).1
      omega
    · intro _ entry taken
      simp only [Table.getByIdEntry, if_pos inRange] at taken
      cases taken
  · have inside : 0 ≤ id := by omega
    have bound : id.toNat < ht.table.length := by omega
    have found := List.getElem?_eq_getElem bound
    generalize ht.table[id.toNat] = table at found
    have taken : ht.getByIdEntry id key = _ :=
      Table.getByIdEntry_eq inside found (sound.counted table (mem_of_getElem? found))
    have first := table.rightFirst_iff (fun entry => table.chains.length = 1 ∨ strcmpEq entry.key key = true)
      (fun entry => entry.key = cString key) (by
        intro entry named
        simp [strcmpEq_of_eq named])
    simp only [decide_eq_true_eq] at first
    simp only [GetByIdExact, GetByIdClear, taken, inside, found, Option.some.injEq, forall_eq', first, true_implies]
    constructor
    · intro exact entry searched
      exact (exact entry searched).2
    · intro exact entry searched
      exact ⟨Table.mem_linked.mpr ⟨_, table, found, mem_of_find?_eq_some searched⟩, exact entry searched⟩

/-- In every table, the two calls take the entry of the very key exactly when no entry that only
seems to have the key comes before it. -/
theorem keyed_access_exact_iff (hash : Key → Nat) (ht : Table) (sound : Sound hash ht) :
    (∀ heap key ptr, DelPtrExact hash ht heap key ptr ↔ DelPtrClear hash ht heap key ptr) ∧
      ∀ id key, GetByIdExact ht id key ↔ GetByIdClear ht id key :=
  ⟨sound.delPtrExact_iff, sound.getByIdExact_iff⟩

end

/-- An entry of the key `abc` with the pointer seven. -/
def oneEntry : Entry :=
  { address := 0, created := 0, hits := 0, hash := 0, key := [97, 98, 99], val := .reference 7, table := 0 }

/-- A table of one chain that got the key `abc` with the pointer seven. -/
def oneEntryTable : Table := step (fun _ => 0) (.add [97, 98, 99] 7 [] 0 0) (createWithTtl 0 .none 1 0)

theorem keyed_access_exact_one_entry : DelPtrExact (fun _ => 0) oneEntryTable id [97, 98, 99] 7 ↔
      DelPtrClear (fun _ => 0) oneEntryTable id [97, 98, 99] 7 :=
  (keyed_access_exact_iff (fun _ => 0) oneEntryTable
    ((sound_create (fun _ => 0) 0 .none 0 (by decide)).step (.add [97, 98, 99] 7 [] 0 0))).1 id [97, 98, 99] 7

/-- The key `ab` takes the entry of `abc` away, and the key `x` gets its value. -/
theorem other_key_taken :
    ¬ DelPtrExact (fun _ => 0) oneEntryTable id [97, 98] 7 ∧ ¬ GetByIdExact oneEntryTable 0 [120] := by
  have holds : oneEntryTable.linked = [oneEntry] := rfl
  constructor
  · intro exact
    have removed : (oneEntryTable.delPtr (fun _ => 0) id [97, 98] 7).1.linked = [] := rfl
    have taken := exact oneEntry (by simp [holds]) (by simp [removed])
    exact absurd taken.1 (by decide)
  · intro exact
    have taken := exact oneEntry rfl
    exact absurd taken.2 (by decide)

end FluentBit.HashTable
