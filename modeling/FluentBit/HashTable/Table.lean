import FluentBit.Foundation.Ascii

/-! Hash tables, after `src/flb_hash_table.c`: chains of entries with their counts, the list
of all entries in the order of their creation, and eviction. -/

set_option autoImplicit false

namespace FluentBit.HashTable

abbrev Key : Type := Bytes

inductive Value where
  | copy (bytes : Bytes)
  | reference (pointer : Nat)
deriving DecidableEq

def Value.size : Value → Int
  | .copy bytes => bytes.length
  | .reference _ => -1

/-- `struct flb_hash_table_entry`, at an address; `table` is the index of its chain. -/
structure Entry where
  address : Nat
  created : Int
  hits : Nat
  hash : Nat
  key : Key
  val : Value
  table : Nat

structure Chain where
  count : Int := 0
  chains : List Entry := []

/-- `FLB_HASH_TABLE_EVICT_NONE`, `_OLDER`, `_LESS_USED` and `_RANDOM` -/
inductive EvictMode where
  | none
  | older
  | lessUsed
  | random
deriving DecidableEq

/-- `struct flb_hash_table`. The entries are known by their addresses, of which the next
one is new. -/
structure Table where
  evictMode : EvictMode
  maxEntries : Int
  totalCount : Int := 0
  cacheTtl : Int := 0
  entries : List Nat := []
  table : List Chain
  address : Nat := 0

/-- `flb_hash_table_create`, for a size that is not zero. -/
def create (evictMode : EvictMode) (size : Nat) (maxEntries : Int) : Table :=
  { evictMode, maxEntries, table := List.replicate size {} }

def createWithTtl (cacheTtl : Int) (evictMode : EvictMode) (size : Nat) (maxEntries : Int) : Table :=
  { create evictMode size maxEntries with cacheTtl }

def Table.linked (ht : Table) : List Entry := ht.table.flatMap Chain.chains

def Table.entryFree (ht : Table) (entry : Entry) : Table :=
  { ht with
    table := ht.table.modify entry.table fun table =>
      { count := table.count - 1, chains := table.chains.filter (·.address ≠ entry.address) }
    entries := ht.entries.filter (· ≠ entry.address)
    totalCount := ht.totalCount - 1 }

def Table.find (ht : Table) (address : Nat) : Option Entry := ht.linked.find? (·.address = address)

def Table.freeAt (ht : Table) (address : Option Nat) : Table :=
  match address.bind ht.find with
  | none => ht
  | some entry => ht.entryFree entry

def Table.evictOlder (ht : Table) : Table := ht.freeAt ht.entries.head?

def lessUsed (entries : List Entry) : Option Entry :=
  entries.foldl (fun best entry =>
    match best with
    | none => some entry
    | some other => if entry.hits < other.hits then some entry else some other) none

def Table.evictLessUsed (ht : Table) : Table :=
  ht.freeAt ((lessUsed (ht.entries.filterMap ht.find)).map Entry.address)

/-- `flb_hash_table_evict_random`, with the number that `random` gave. -/
def Table.evictRandom (ht : Table) (random : Nat) : Table :=
  ht.freeAt ht.entries[random % ht.totalCount.toNat]?

/-- The check of the capacity in `flb_hash_table_add`. -/
def Table.makeRoom (ht : Table) (random : Nat) : Table :=
  if 0 < ht.maxEntries ∧ ht.maxEntries ≤ ht.totalCount then
    match ht.evictMode with
    | .none => ht
    | .older => ht.evictOlder
    | .lessUsed => ht.evictLessUsed
    | .random => ht.evictRandom random
  else ht

def cString (text : Key) : Key := text.takeWhile (· ≠ 0)

/-- `strncmp` finds no difference. -/
def strncmpEq (left right : Key) (count : Nat) : Bool := (cString left).take count = (cString right).take count

/-- `strcmp` finds no difference. -/
def strcmpEq (left right : Key) : Bool := cString left = cString right

section

variable (hash : Key → Nat)

def Table.id (ht : Table) (key : Key) : Nat := hash key % ht.table.length

def Chain.search (table : Chain) (fits : Entry → Bool) : Option Entry :=
  if table.count = 1 then table.chains.head?.filter fits else table.chains.find? fits

def Table.hashGetEntry (ht : Table) (key : Key) : Option Entry :=
  if key.length = 0 then none
  else
    match ht.table[ht.id hash key]? with
    | none => none
    | some table =>
      if table.count = 0 then none
      else table.search fun entry => entry.key.length = key.length ∧ strncmpEq entry.key key key.length

/-- `entry_set_value`: a value of no size is a pointer. -/
def Entry.setValue (entry : Entry) (val : Nat) (content : Bytes) (now : Int) : Entry :=
  { entry with val := if 0 < content.length then .copy content else .reference val, created := now }

def Table.write (ht : Table) (entry : Entry) (change : Entry → Entry) : Table :=
  { ht with
    table := ht.table.map fun table =>
      { table with chains := table.chains.map fun other => if other.address = entry.address then change other else other } }

def Table.link (ht : Table) (entry : Entry) : Table :=
  { ht with
    table := ht.table.modify entry.table fun table =>
      { count := table.count + 1, chains := table.chains ++ [entry] }
    entries := ht.entries ++ [entry.address]
    totalCount := ht.totalCount + 1
    address := ht.address + 1 }

/-- `flb_hash_table_add`, of a value at an address with its bytes. -/
def Table.add (ht : Table) (key : Key) (val : Nat) (content : Bytes) (now : Int) (random : Nat) : Table × Option Nat :=
  if key.length = 0 then (ht, none)
  else
    let ht := ht.makeRoom random
    let id := ht.id hash key
    match ht.hashGetEntry hash key with
    | some entry => (ht.write entry fun entry => entry.setValue val content now, some id)
    | none =>
      let entry : Entry :=
        { address := ht.address, created := now, hits := 0, hash := hash key, key, val := .reference 0, table := id }
      (ht.link (entry.setValue val content now), some id)

def Table.hit (ht : Table) (entry : Entry) : Table := ht.write entry fun entry => { entry with hits := entry.hits + 1 }

/-- `flb_hash_table_get`, with the value and its size. -/
def Table.get (ht : Table) (key : Key) (now : Int) : Table × Option (Nat × Value × Int) :=
  match ht.hashGetEntry hash key with
  | none => (ht, none)
  | some entry =>
    if 0 < ht.cacheTtl ∧ entry.created + ht.cacheTtl < now then (ht.entryFree entry, none)
    else (ht.hit entry, some (ht.id hash key, entry.val, entry.val.size))

/-- `flb_hash_table_get_ptr`; the null pointer is at address zero. -/
def Table.getPtr (ht : Table) (key : Key) : Table × Value :=
  match ht.hashGetEntry hash key with
  | none => (ht, .reference 0)
  | some entry => (ht.hit entry, entry.val)

def Table.del (ht : Table) (key : Key) : Table × Bool :=
  if (cString key).length = 0 then (ht, false)
  else
    match ht.table[ht.id hash (cString key)]?.bind fun table => table.search fun entry => strcmpEq entry.key key with
    | none => (ht, false)
    | some entry => (ht.entryFree entry, true)

def Entry.pointer (heap : Nat → Nat) (entry : Entry) : Nat :=
  match entry.val with
  | .copy _ => heap entry.address
  | .reference pointer => pointer

/-- The entry that `flb_hash_table_del_ptr` takes: the lengths of the keys are not compared. -/
def Table.delPtrEntry (ht : Table) (heap : Nat → Nat) (key : Key) (ptr : Nat) : Option Entry :=
  ht.table[ht.id hash key]?.bind fun table =>
    table.chains.find? fun entry => strncmpEq entry.key key key.length ∧ entry.pointer heap = ptr

def Table.delPtr (ht : Table) (heap : Nat → Nat) (key : Key) (ptr : Nat) : Table × Bool :=
  match ht.delPtrEntry hash heap key ptr with
  | none => (ht, false)
  | some entry => (ht.entryFree entry, true)

end

/-- The entry that `flb_hash_table_get_by_id` takes: the only one of a chain as it is. A number
below zero is a large one without its sign. -/
def Table.getByIdEntry (ht : Table) (id : Int) (key : Key) : Option Entry :=
  if id < 0 ∨ ht.table.length ≤ id then none
  else
    ht.table[id.toNat]?.bind fun table =>
      if table.count = 0 then none
      else if table.count = 1 then table.chains.head?
      else table.chains.find? fun entry => strcmpEq entry.key key

/-- `flb_hash_table_get_by_id`, with the value and its size. -/
def Table.getById (ht : Table) (id : Int) (key : Key) : Option (Value × Int) :=
  (ht.getByIdEntry id key).map fun entry => (entry.val, entry.val.size)

inductive Op where
  | add (key : Key) (val : Nat) (content : Bytes) (now : Int) (random : Nat)
  | get (key : Key) (now : Int)
  | getPtr (key : Key)
  | del (key : Key)

def step (hash : Key → Nat) (op : Op) (ht : Table) : Table :=
  match op with
  | .add key val content now random => (ht.add hash key val content now random).1
  | .get key now => (ht.get hash key now).1
  | .getPtr key => (ht.getPtr hash key).1
  | .del key => (ht.del hash key).1

end FluentBit.HashTable
