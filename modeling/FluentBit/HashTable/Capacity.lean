import FluentBit.HashTable.TableProperties

/-! Tables with a limit: who makes room for an entry, and for which one. -/

set_option autoImplicit false

namespace FluentBit.HashTable

open List Nat Option

def Table.victim (ht : Table) (random : Nat) : Option Entry :=
  Option.bind
    (match ht.evictMode with
      | .none => none
      | .older => ht.entries.head?
      | .lessUsed => (lessUsed (ht.entries.filterMap ht.find)).map Entry.address
      | .random => ht.entries[random % ht.totalCount.toNat]?)
    ht.find

def Table.Full (ht : Table) : Prop := ht.maxEntries ≤ ht.totalCount

def Entry.fits (entry : Entry) (key : Key) : Prop :=
  entry.key.length = key.length ∧ cString entry.key = cString key

section

variable {hash : Key → Nat} {ht : Table} {entry : Entry} {key : Key}
variable {random : Nat} {other : Entry}

theorem Table.makeRoom_full (positive : 0 < ht.maxEntries) (full : ht.Full) (evicted : ht.victim random = some entry) :
    ht.makeRoom random = ht.entryFree entry := by
  unfold Table.victim at evicted
  unfold Table.makeRoom
  rw [if_pos ⟨positive, full⟩]
  cases mode : ht.evictMode with
  | none =>
    rw [mode] at evicted
    cases evicted
  | older =>
    rw [mode] at evicted
    simp [Table.evictOlder, Table.freeAt, evicted]
  | lessUsed =>
    rw [mode] at evicted
    simp [Table.evictLessUsed, Table.freeAt, evicted]
  | random =>
    rw [mode] at evicted
    simp [Table.evictRandom, Table.freeAt, evicted]

theorem Table.makeRoom_of_not_full (room : ¬ ht.Full) (random : Nat) : ht.makeRoom random = ht := by
  unfold Table.makeRoom
  exact if_neg fun full => room full.2

theorem Table.victim_mem (evicted : ht.victim random = some entry) : entry ∈ ht.linked := by
  obtain ⟨address, -, found⟩ := bind_eq_some_iff.mp evicted
  exact mem_of_find?_eq_some found

theorem Sound.find_address (sound : Sound hash ht) (member : entry ∈ ht.linked) : ht.find entry.address = some entry := by
  cases found : ht.find entry.address with
  | none =>
    have missing := List.find?_eq_none.mp found entry member
    simp at missing
  | some other =>
    have named := List.find?_some found
    rw [sound.eq_of_address (mem_of_find?_eq_some found) member (by simpa using named)]

theorem lessUsed_cons (rest : List Entry) (best : Entry) :
    ∃ entry, lessUsed (best :: rest) = some entry ∧ entry ∈ best :: rest := by
  induction rest generalizing best with
  | nil => exact ⟨best, rfl, mem_cons_self⟩
  | cons next rest ih =>
    have step : lessUsed (best :: next :: rest) = lessUsed ((if next.hits < best.hits then next else best) :: rest) := by
      simp only [lessUsed, foldl_cons]
      split <;> rfl
    rw [step]
    split
    · obtain ⟨entry, picked, place⟩ := ih next
      exact ⟨entry, picked, mem_cons_of_mem _ place⟩
    · obtain ⟨entry, picked, place⟩ := ih best
      refine ⟨entry, picked, ?_⟩
      cases mem_cons.mp place with
      | inl same => exact same ▸ mem_cons_self
      | inr later => exact mem_cons_of_mem _ (mem_cons_of_mem _ later)

theorem lessUsed_mem {entries : List Entry} (nonempty : entries ≠ []) :
    ∃ entry, lessUsed entries = some entry ∧ entry ∈ entries := by
  cases entries with
  | nil => exact absurd rfl nonempty
  | cons first rest => exact lessUsed_cons rest first

theorem Sound.victim (sound : Sound hash ht) (evicts : ht.evictMode ≠ .none) (filled : 0 < ht.totalCount) (random : Nat) :
    ∃ entry, ht.victim random = some entry := by
  have length : ht.entries.length = ht.linked.length := by
    rw [sound.parents.length_eq, length_map]
  have total := sound.total
  have known : ∀ address ∈ ht.entries, ∃ entry, ht.find address = some entry := by
    intro address member
    obtain ⟨entry, linked, rfl⟩ := mem_map.mp (sound.parents.mem_iff.mp member)
    exact ⟨entry, sound.find_address linked⟩
  have nonempty : ht.entries ≠ [] := by
    intro empty
    rw [empty, length_nil] at length
    omega
  unfold Table.victim
  cases mode : ht.evictMode with
  | none => exact absurd mode evicts
  | older =>
    obtain ⟨entry, found⟩ := known _ (head_mem nonempty)
    refine ⟨entry, ?_⟩
    simp [List.head?_eq_some_head nonempty, found]
  | lessUsed =>
    obtain ⟨first, firstFound⟩ := known _ (head_mem nonempty)
    have kept : ht.entries.filterMap ht.find ≠ [] :=
      ne_nil_of_mem (mem_filterMap.mpr ⟨_, head_mem nonempty, firstFound⟩)
    obtain ⟨entry, picked, member⟩ := lessUsed_mem kept
    obtain ⟨address, -, found⟩ := mem_filterMap.mp member
    refine ⟨entry, ?_⟩
    simp [picked, sound.find_address (mem_of_find?_eq_some found)]
  | random =>
    have bound : random % ht.totalCount.toNat < ht.entries.length := by
      have less : random % ht.totalCount.toNat < ht.totalCount.toNat := mod_lt _ (by omega)
      omega
    obtain ⟨entry, found⟩ := known _ (getElem_mem bound)
    refine ⟨entry, ?_⟩
    simp [List.getElem?_eq_getElem bound, found]

theorem strncmpEq_length {left key : Key} (same : left.length = key.length) :
    strncmpEq left key key.length = true ↔ cString left = cString key := by
  have leftWhole : (cString left).take key.length = cString left :=
    take_of_length_le (same ▸ ( takeWhile_prefix _).length_le)
  have keyWhole : (cString key).take key.length = cString key := take_of_length_le ( takeWhile_prefix _).length_le
  simp [strncmpEq, leftWhole, keyWhole]

theorem Sound.hashGetEntry_fits (sound : Sound hash ht) (searched : ht.hashGetEntry hash key = some entry) :
    entry ∈ ht.linked ∧ entry.table = ht.id hash key ∧ entry.fits key := by
  have member := sound.hashGetEntry_mem searched
  unfold Table.hashGetEntry at searched
  split at searched
  · cases searched
  · split at searched
    · cases searched
    next table found =>
      split at searched
      · cases searched
      · rw [Chain.search_eq_find (sound.counted table (mem_of_getElem? found))] at searched
        have fits := List.find?_some searched
        simp only [decide_eq_true_eq] at fits
        exact ⟨member, (sound.placed _ table found entry (mem_of_find?_eq_some searched)).1, fits.1,
          (strncmpEq_length fits.1).mp fits.2⟩

theorem Sound.hashGetEntry_none (sound : Sound hash ht) (nonempty : key ≠ []) (missing : ht.hashGetEntry hash key = none)
    (member : entry ∈ ht.linked) (placed : entry.table = ht.id hash key) : ¬ entry.fits key := by
  intro fits
  obtain ⟨table, found, inside, -⟩ := sound.found member
  have counted := sound.counted table (mem_of_getElem? found)
  have filled := length_pos_of_mem inside
  rw [placed] at found
  simp only [Table.hashGetEntry, length_eq_zero_iff, if_neg nonempty, found] at missing
  rw [if_neg (by omega), Chain.search_eq_find counted] at missing
  have refused := List.find?_eq_none.mp missing entry inside
  simp only [decide_eq_true_eq, not_and] at refused
  exact refused fits.1 ((strncmpEq_length fits.1).mpr fits.2)

/-- A table of at most `limit` entries, no two of them in a chain under keys that are taken for
each other. -/
structure Bounded (hash : Key → Nat) (mode : EvictMode) (limit : Int) (ht : Table) : Prop where
  sound : Sound hash ht
  sameMode : ht.evictMode = mode
  sameLimit : ht.maxEntries = limit
  few : (ht.linked.length : Int) ≤ limit
  named : ∀ entry ∈ ht.linked, entry.key ≠ []
  apart : ∀ left ∈ ht.linked, ∀ right ∈ ht.linked, left.table = right.table → left.fits right.key → left = right

variable {mode : EvictMode} {limit : Int}

theorem Bounded.entryFree (bounded : Bounded hash mode limit ht) (member : entry ∈ ht.linked) :
    Bounded hash mode limit (ht.entryFree entry) := by
  have linked := bounded.sound.linked_entryFree member
  have inside : ∀ other ∈ (ht.entryFree entry).linked, other ∈ ht.linked := by
    intro other kept
    rw [linked] at kept
    exact mem_of_mem_filter kept
  have fewer := length_filter_le (·.address ≠ entry.address) ht.linked
  have few := bounded.few
  constructor
  · exact bounded.sound.entryFree member
  · exact bounded.sameMode
  · exact bounded.sameLimit
  · rw [linked]
    omega
  · exact fun other kept => bounded.named other (inside other kept)
  · exact fun left leftKept right rightKept =>
      bounded.apart left (inside left leftKept) right (inside right rightKept)

theorem Table.mem_write {change : Entry → Entry} (kept : other ∈ (ht.write entry change).linked) :
    ∃ origin ∈ ht.linked, other = if origin.address = entry.address then change origin else origin := by
  rw [Table.linked_write] at kept
  obtain ⟨origin, member, rfl⟩ := mem_map.mp kept
  exact ⟨origin, member, rfl⟩

theorem Bounded.write (bounded : Bounded hash mode limit ht) (entry : Entry) (change : Entry → Entry)
    (same : ∀ other, (change other).address = other.address ∧ (change other).key = other.key ∧
      (change other).table = other.table) : Bounded hash mode limit (ht.write entry change) := by
  have origins : ∀ other ∈ (ht.write entry change).linked, ∃ origin ∈ ht.linked,
      other = (if origin.address = entry.address then change origin else origin) ∧
        other.key = origin.key ∧ other.table = origin.table := by
    intro other kept
    obtain ⟨origin, member, rfl⟩ := Table.mem_write kept
    refine ⟨origin, member, rfl, ?_⟩
    split
    · exact (same origin).2
    · exact ⟨rfl, rfl⟩
  constructor
  · exact bounded.sound.write entry change same
  · exact bounded.sameMode
  · exact bounded.sameLimit
  · rw [Table.linked_write, length_map]
    exact bounded.few
  · intro other kept
    obtain ⟨origin, member, -, named, -⟩ := origins other kept
    rw [named]
    exact bounded.named origin member
  · intro left leftKept right rightKept chained fits
    obtain ⟨first, firstMember, leftIs, leftNamed, leftPlaced⟩ := origins left leftKept
    obtain ⟨second, secondMember, rightIs, rightNamed, rightPlaced⟩ := origins right rightKept
    simp only [Entry.fits, leftNamed, rightNamed] at fits
    have one := bounded.apart first firstMember second secondMember (by rw [← leftPlaced, chained, rightPlaced]) fits
    rw [leftIs, rightIs, one]

theorem Bounded.link (bounded : Bounded hash mode limit ht) (new : entry.address = ht.address)
    (hashed : entry.table = ht.id hash entry.key) (named : entry.key ≠ []) (room : (ht.linked.length : Int) < limit)
    (missing : ht.hashGetEntry hash entry.key = none) : Bounded hash mode limit (ht.link entry) := by
  have inside : entry.table < ht.table.length := by
    rw [hashed]
    exact mod_lt _ bounded.sound.sized
  have linked := Table.linked_link inside
  have cases : ∀ other ∈ (ht.link entry).linked, other ∈ ht.linked ∨ other = entry := by
    intro other kept
    rw [linked.mem_iff, mem_append, mem_singleton] at kept
    exact kept
  have unlike : ∀ other ∈ ht.linked, other.table = entry.table → ¬ other.fits entry.key := by
    intro other member placed
    exact bounded.sound.hashGetEntry_none named missing member (placed.trans hashed)
  constructor
  · exact bounded.sound.link new hashed
  · exact bounded.sameMode
  · exact bounded.sameLimit
  · rw [linked.length_eq, length_append, length_singleton]
    omega
  · intro other kept
    cases cases other kept with
    | inl earlier => exact bounded.named other earlier
    | inr last => exact last ▸ named
  · intro left leftKept right rightKept chained fits
    cases cases left leftKept with
    | inl leftEarlier =>
      cases cases right rightKept with
      | inl rightEarlier => exact bounded.apart left leftEarlier right rightEarlier chained fits
      | inr rightLast =>
        subst rightLast
        exact absurd fits (unlike left leftEarlier chained)
    | inr leftLast =>
      subst leftLast
      cases cases right rightKept with
      | inl rightEarlier => exact absurd ⟨fits.1.symm, fits.2.symm⟩ (unlike right rightEarlier chained.symm)
      | inr rightLast => exact rightLast.symm

def stored (val : Nat) (content : Bytes) : Value := if 0 < content.length then .copy content else .reference val

theorem Table.id_makeRoom : (ht.makeRoom random).id hash key = ht.id hash key := by
  have size : ∀ address, (ht.freeAt address).table.length = ht.table.length := by
    intro address
    unfold Table.freeAt
    split
    · rfl
    · exact length_modify ..
  have same : (ht.makeRoom random).table.length = ht.table.length := by
    unfold Table.makeRoom
    split
    · split
      · rfl
      all_goals exact size _
    · rfl
  simp [Table.id, same]

theorem Sound.add_linked (sound : Sound hash ht) (nonempty : key ≠ []) (val : Nat) (content : Bytes) (now : Int)
    (random : Nat) :
    (∃ found, (ht.makeRoom random).hashGetEntry hash key = some found ∧ (ht.add hash key val content now random).1 =
        (ht.makeRoom random).write found fun entry => entry.setValue val content now) ∨
    ∃ entry, entry.address = (ht.makeRoom random).address ∧ entry.key = key ∧ entry.val = stored val content ∧
      entry.table = (ht.makeRoom random).id hash key ∧ (ht.makeRoom random).hashGetEntry hash key = none ∧
      (ht.add hash key val content now random).1 = (ht.makeRoom random).link entry ∧
      ((ht.makeRoom random).link entry).linked.Perm ((ht.makeRoom random).linked ++ [entry]) := by
  have filled : ¬ key.length = 0 := by simpa using nonempty
  have room := sound.makeRoom random
  simp only [Table.add, if_neg filled]
  cases searched : (ht.makeRoom random).hashGetEntry hash key with
  | some found => exact .inl ⟨found, rfl, rfl⟩
  | none =>
    refine .inr ⟨_, ?_, ?_, ?_, ?_, rfl, rfl, Table.linked_link ?_⟩
    · rfl
    · rfl
    · rfl
    · rfl
    · exact mod_lt _ room.sized

theorem Bounded.add (bounded : Bounded hash mode limit ht) (positive : 0 < limit) (evicts : mode ≠ .none)
    (key : Key) (val : Nat) (content : Bytes) (now : Int) (random : Nat) :
    Bounded hash mode limit (ht.add hash key val content now random).1 := by
  by_cases nonempty : key = []
  · subst nonempty
    exact bounded
  · have total := bounded.sound.total
    have few := bounded.few
    have same := bounded.sameLimit
    have room : Bounded hash mode limit (ht.makeRoom random) ∧ ((ht.makeRoom random).linked.length : Int) < limit := by
      by_cases full : ht.Full
      · have filled : 0 < ht.totalCount := by
          have reached : ht.maxEntries ≤ ht.totalCount := full
          omega
        obtain ⟨victim, evicted⟩ := bounded.sound.victim (bounded.sameMode.symm ▸ evicts) filled random
        have member := Table.victim_mem evicted
        have fewer := length_filter_address bounded.sound.distinct member
        rw [Table.makeRoom_full (same.symm ▸ positive) full evicted]
        refine ⟨bounded.entryFree member, ?_⟩
        rw [bounded.sound.linked_entryFree member]
        omega
      · rw [Table.makeRoom_of_not_full full]
        have short : ht.totalCount < ht.maxEntries := Int.not_le.mp full
        exact ⟨bounded, by omega⟩
    cases bounded.sound.add_linked nonempty val content now random with
    | inl written =>
      obtain ⟨found, -, result⟩ := written
      rw [result]
      exact room.1.write found _ fun _ => ⟨rfl, rfl, rfl⟩
    | inr linked =>
      obtain ⟨entry, new, rfl, -, placed, missing, result, -⟩ := linked
      rw [result]
      exact room.1.link new placed nonempty room.2 missing

theorem Bounded.step (bounded : Bounded hash mode limit ht) (positive : 0 < limit) (evicts : mode ≠ .none) (op : Op) :
    Bounded hash mode limit (step hash op ht) := by
  cases op with
  | add key val content now random => exact bounded.add positive evicts key val content now random
  | get key now =>
    simp only [HashTable.step, Table.get]
    split
    · exact bounded
    next entry searched =>
      split
      · exact bounded.entryFree (bounded.sound.hashGetEntry_mem searched)
      · exact bounded.write entry _ fun _ => ⟨rfl, rfl, rfl⟩
  | getPtr key =>
    simp only [HashTable.step, Table.getPtr]
    split
    · exact bounded
    next entry searched => exact bounded.write entry _ fun _ => ⟨rfl, rfl, rfl⟩
  | del key =>
    simp only [HashTable.step, Table.del]
    split
    · exact bounded
    · split
      · exact bounded
      next entry searched =>
        obtain ⟨table, found, inChain⟩ := bind_eq_some_iff.mp searched
        exact bounded.entryFree (bounded.sound.search_mem found inChain)

theorem Bounded.run (bounded : Bounded hash mode limit ht) (positive : 0 < limit) (evicts : mode ≠ .none)
    (ops : List Op) : Bounded hash mode limit (Runs.after (HashTable.step hash) ht ops) := by
  induction ops generalizing ht with
  | nil => exact bounded
  | cons op rest ih => exact ih (bounded.step positive evicts op)

theorem Bounded.eq_of_key (bounded : Bounded hash mode limit ht) (member : entry ∈ ht.linked)
    (otherMember : other ∈ ht.linked) (same : entry.key = other.key) : entry = other := by
  obtain ⟨-, -, -, hashed⟩ := bounded.sound.found member
  obtain ⟨-, -, -, otherHashed⟩ := bounded.sound.found otherMember
  apply bounded.apart entry member other otherMember
  · rw [← hashed, ← otherHashed, same]
  · exact ⟨congrArg List.length same, congrArg cString same⟩

/-! ### What an add takes away -/

theorem Bounded.survives_iff (bounded : Bounded hash mode limit ht) (positive : 0 < limit) (full : ht.Full)
    {victim : Entry} (evicted : ht.victim random = some victim) (nonempty : key ≠ []) (val : Nat)
    (content : Bytes) (now : Int) (member : entry ∈ ht.linked) :
    (∃ kept ∈ (ht.add hash key val content now random).1.linked, kept.address = entry.address) ↔ entry ≠ victim := by
  have victimMember := Table.victim_mem evicted
  have room := Table.makeRoom_full (bounded.sameLimit.symm ▸ positive) full evicted
  have left := bounded.sound.linked_entryFree victimMember
  have inRoom : (∃ kept ∈ (ht.entryFree victim).linked, kept.address = entry.address) ↔ entry ≠ victim := by
    simp only [left, mem_filter, decide_eq_true_eq]
    constructor
    · rintro ⟨kept, ⟨-, other⟩, same⟩ rfl
      exact other same
    · intro other
      exact ⟨entry, ⟨member, fun same => other (bounded.sound.eq_of_address member victimMember same)⟩, rfl⟩
  rw [← inRoom]
  cases bounded.sound.add_linked nonempty val content now random with
  | inl written =>
    obtain ⟨found, -, result⟩ := written
    rw [result, room]
    constructor
    · rintro ⟨kept, inside, same⟩
      obtain ⟨origin, originMember, rfl⟩ := Table.mem_write inside
      refine ⟨origin, originMember, same.symm ▸ ?_⟩
      split
      · rfl
      · rfl
    · rintro ⟨kept, inside, same⟩
      rw [Table.linked_write]
      refine ⟨_, mem_map_of_mem inside, same ▸ ?_⟩
      split
      · rfl
      · rfl
  | inr linked =>
    obtain ⟨new, address, -, -, -, -, result, perm⟩ := linked
    rw [room] at address result perm
    rw [result]
    simp only [perm.mem_iff, mem_append, mem_singleton]
    constructor
    · rintro ⟨kept, inside, same⟩
      cases inside with
      | inl earlier => exact ⟨kept, earlier, same⟩
      | inr last =>
        -- the new entry is at an address of its own
        have older := bounded.sound.fresh entry member
        have fresh : (ht.entryFree victim).address = ht.address := rfl
        rw [last, address, fresh] at same
        omega
    · rintro ⟨kept, inside, same⟩
      exact ⟨kept, .inl inside, same⟩

/-- An add keeps the limit, takes nothing else away when the key is there already, and exactly
one entry when it is not and the table is full. -/
structure AddKeeps (hash : Key → Nat) (ht : Table) (key : Key) (val : Nat) (content : Bytes) (now : Int)
    (random : Nat) : Prop where
  few : ((ht.add hash key val content now random).1.linked.length : Int) ≤ ht.maxEntries
  present : (∃ entry ∈ ht.linked, entry.key = key) →
    (∀ other : Entry, other.key ≠ key →
      (other ∈ (ht.add hash key val content now random).1.linked ↔ other ∈ ht.linked)) ∧
    ∃ entry ∈ (ht.add hash key val content now random).1.linked, entry.key = key ∧ entry.val = stored val content
  absent : key ≠ [] → (∀ entry ∈ ht.linked, entry.key ≠ key) → ht.Full →
    ∃ gone ∈ ht.linked, ∀ entry ∈ ht.linked,
      (∃ kept ∈ (ht.add hash key val content now random).1.linked, kept.address = entry.address) ↔ entry ≠ gone

def AddSpares (ht : Table) (key : Key) (random : Nat) : Prop :=
  (∀ entry ∈ ht.linked, entry.key ≠ key) ∨ ¬ ht.Full ∨ ∃ victim, ht.victim random = some victim ∧ victim.key = key

section

variable (bounded : Bounded hash mode limit ht)
include bounded

theorem Bounded.add_room (room : ¬ ht.Full) (member : entry ∈ ht.linked) (val : Nat) (content : Bytes)
    (now : Int) (random : Nat) : (∀ other : Entry, other.key ≠ entry.key →
      (other ∈ (ht.add hash entry.key val content now random).1.linked ↔ other ∈ ht.linked)) ∧
    ∃ written ∈ (ht.add hash entry.key val content now random).1.linked,
      written.key = entry.key ∧ written.val = stored val content := by
  have nonempty := bounded.named entry member
  have same := Table.makeRoom_of_not_full room random
  obtain ⟨-, -, -, hashed⟩ := bounded.sound.found member
  cases bounded.sound.add_linked nonempty val content now random with
  | inl written =>
    obtain ⟨found, searched, result⟩ := written
    rw [same] at searched
    obtain ⟨foundMember, placed, fits⟩ := bounded.sound.hashGetEntry_fits searched
    have own := bounded.apart found foundMember entry member (placed.trans hashed) fits
    subst own
    rw [result, same, Table.linked_write]
    constructor
    · intro other different
      rw [List.mem_map]
      constructor
      · rintro ⟨origin, originMember, rfl⟩
        split at different
        next here => exact absurd (congrArg Entry.key (bounded.sound.eq_of_address originMember member here)) different
        next elsewhere =>
          rw [if_neg elsewhere]
          exact originMember
      · intro otherMember
        refine ⟨other, otherMember, if_neg ?_⟩
        intro here
        exact different (congrArg Entry.key (bounded.sound.eq_of_address otherMember member here))
    · exact ⟨found.setValue val content now, mem_map.mpr ⟨found, member, if_pos rfl⟩, rfl, rfl⟩
  | inr linked =>
    obtain ⟨-, -, -, -, -, missing, -⟩ := linked
    rw [same] at missing
    exact absurd ⟨rfl, rfl⟩ (bounded.sound.hashGetEntry_none nonempty missing member hashed.symm)

theorem Bounded.add_own (positive : 0 < limit) (full : ht.Full) (evicted : ht.victim random = some entry) (val : Nat)
    (content : Bytes) (now : Int) : (∀ other : Entry, other.key ≠ entry.key →
      (other ∈ (ht.add hash entry.key val content now random).1.linked ↔ other ∈ ht.linked)) ∧
    ∃ written ∈ (ht.add hash entry.key val content now random).1.linked,
      written.key = entry.key ∧ written.val = stored val content := by
  have member := Table.victim_mem evicted
  have nonempty := bounded.named entry member
  have room := Table.makeRoom_full (bounded.sameLimit.symm ▸ positive) full evicted
  have left := bounded.sound.linked_entryFree member
  have leftBounded := bounded.entryFree member
  obtain ⟨-, -, -, hashed⟩ := bounded.sound.found member
  cases bounded.sound.add_linked nonempty val content now random with
  | inl written =>
    obtain ⟨found, searched, -⟩ := written
    obtain ⟨foundMember, placed, fits⟩ := (bounded.sound.makeRoom random).hashGetEntry_fits searched
    rw [Table.id_makeRoom] at placed
    rw [room, left, mem_filter, decide_eq_true_eq] at foundMember
    have own := bounded.apart found foundMember.1 entry member (placed.trans hashed) fits
    exact absurd (congrArg Entry.address own) foundMember.2
  | inr linked =>
    obtain ⟨new, -, named, valued, -, -, result, perm⟩ := linked
    rw [room] at result perm
    rw [result]
    simp only [perm.mem_iff, left, mem_append, mem_filter, mem_singleton, decide_eq_true_eq]
    constructor
    · intro other different
      constructor
      · intro inside
        cases inside with
        | inl earlier => exact earlier.1
        | inr last => exact absurd (last ▸ named) different
      · intro otherMember
        refine .inl ⟨otherMember, ?_⟩
        intro here
        exact different (congrArg Entry.key (bounded.sound.eq_of_address otherMember member here))
    · exact ⟨new, .inr rfl, named, valued⟩

theorem Bounded.addKeeps_iff (positive : 0 < limit) (evicts : mode ≠ .none) (key : Key) (val : Nat)
    (content : Bytes) (now : Int) (random : Nat) :
    AddKeeps hash ht key val content now random ↔ AddSpares ht key random := by
  have victims : ht.Full → ∃ victim, ht.victim random = some victim := by
    intro full
    have reached : ht.maxEntries ≤ ht.totalCount := full
    have same := bounded.sameLimit
    exact bounded.sound.victim (bounded.sameMode.symm ▸ evicts) (by omega) random
  constructor
  · intro keeps
    by_cases present : ∃ entry ∈ ht.linked, entry.key = key
    · obtain ⟨entry, member, rfl⟩ := present
      by_cases full : ht.Full
      · obtain ⟨victim, evicted⟩ := victims full
        refine .inr (.inr ⟨victim, evicted, ?_⟩)
        by_contra other
        -- the evicted entry has another key, and is gone
        have victimMember := Table.victim_mem evicted
        have stays := ((keeps.present ⟨entry, member, rfl⟩).1 victim other).mpr victimMember
        exact (bounded.survives_iff positive full evicted (bounded.named entry member) val content now
          victimMember).mp ⟨victim, stays, rfl⟩ rfl
      · exact .inr (.inl full)
    · push Not at present
      exact .inl present
  · intro spares
    constructor
    · rw [bounded.sameLimit]
      exact (bounded.add positive evicts key val content now random).few
    · rintro ⟨entry, member, rfl⟩
      cases spares with
      | inl absent => exact absurd rfl (absent entry member)
      | inr spares =>
        cases spares with
        | inl room => exact bounded.add_room room member val content now random
        | inr own =>
          obtain ⟨victim, evicted, same⟩ := own
          have entryIs := bounded.eq_of_key (Table.victim_mem evicted) member same
          subst entryIs
          by_cases full : ht.Full
          · exact bounded.add_own positive full evicted val content now
          · exact bounded.add_room full member val content now random
    · intro nonempty _ full
      obtain ⟨victim, evicted⟩ := victims full
      exact ⟨victim, Table.victim_mem evicted, fun entry member =>
        bounded.survives_iff positive full evicted nonempty val content now member⟩

end

end

theorem bounded_create (hash : Key → Nat) (ttl : Int) (mode : EvictMode) {size : Nat} {limit : Int} (nonempty : 0 < size)
    (positive : 0 < limit) : Bounded hash mode limit (createWithTtl ttl mode size limit) := by
  have linked : (createWithTtl ttl mode size limit).linked = [] := linked_create mode size limit
  constructor
  · exact sound_create hash ttl mode limit nonempty
  · rfl
  · rfl
  · rw [linked]
    exact Int.le_of_lt positive
  · rw [linked]
    intro entry member
    cases member
  · rw [linked]
    intro entry member
    cases member

/-- After every run of calls on a table with a limit and a mode that evicts, there are not more
entries than the limit, and the next add keeps what it should exactly when the key is new, the
table has room, or the entry to evict is the key's own. -/
theorem add_keeps_iff (hash : Key → Nat) (ttl : Int) (mode : EvictMode) (size : Nat) (limit : Int) (nonempty : 0 < size)
    (positive : 0 < limit) (evicts : mode ≠ .none) (ops : List Op) :
    let ht := Runs.after (step hash) (createWithTtl ttl mode size limit) ops
    (ht.linked.length : Int) ≤ limit ∧ ∀ key val content now random,
      AddKeeps hash ht key val content now random ↔ AddSpares ht key random := by
  intro ht
  have bounded := (bounded_create hash ttl mode nonempty positive).run positive evicts ops
  exact ⟨bounded.few, bounded.addKeeps_iff positive evicts⟩

/-- A table of two entries, `a` and then `b`. -/
def twoEntries : Table :=
  Runs.after (step fun _ => 0) (createWithTtl 0 .older 1 2) [.add [97] 0 [1] 0 0, .add [98] 0 [2] 0 0]

theorem add_keeps_iff_two_entries : AddKeeps (fun _ => 0) twoEntries [97] 0 [3] 0 0 ↔ AddSpares twoEntries [97] 0 :=
  (add_keeps_iff (fun _ => 0) 0 .older 1 2 (by decide) (by decide) (by decide)
    [.add [97] 0 [1] 0 0, .add [98] 0 [2] 0 0]).2 [97] 0 [3] 0 0

/-- A new value for `b`, which is there already, takes `a` away. -/
theorem present_key_evicts : ¬ AddKeeps (fun _ => 0) twoEntries [98] 0 [3] 0 0 := by
  intro keeps
  have before : twoEntries.linked.map Entry.key = [[97], [98]] := rfl
  have after : (twoEntries.add (fun _ => 0) [98] 0 [3] 0 0).1.linked.map Entry.key = [[98]] := rfl
  have held : ∀ key ∈ [[97], [98]], ∃ entry ∈ twoEntries.linked, entry.key = key := by
    intro key member
    rw [← before] at member
    exact mem_map.mp member
  obtain ⟨first, firstMember, firstNamed⟩ := held [97] (by decide)
  have stays := ((keeps.present (held [98] (by decide))).1 first (by rw [firstNamed]; decide)).mpr firstMember
  have named := mem_map_of_mem (f := Entry.key) stays
  rw [after, firstNamed] at named
  exact absurd named (by decide)

end FluentBit.HashTable
