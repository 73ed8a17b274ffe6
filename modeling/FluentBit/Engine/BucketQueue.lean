import FluentBit.Foundation.PriorityOrder
import FluentBit.Foundation.Runs
import Mathlib.Data.List.Nodup
import Mathlib.Data.List.Perm.Basic

/-! The priority queue of the event loops, after `include/fluent-bit/flb_bucket_queue.h`: a list
for each priority, and a pointer to the first list that may hold something. Items also leave by
`mk_list_del`, of which the queue does not hear. -/

set_option autoImplicit false

namespace FluentBit

/-- `struct flb_bucket_queue`. The items are known by their addresses, and `top` is the index of
a bucket or one past the last. -/
structure BucketQueue (Item : Type) where
  buckets : List (List Item)
  top : Nat
  nItems : Nat

namespace BucketQueue

variable {Item : Type}

def create (Item : Type) (priorities : Nat) : BucketQueue Item :=
  { buckets := List.replicate priorities [], top := priorities, nItems := 0 }

def nBuckets (queue : BucketQueue Item) : Nat := queue.buckets.length

def isEmpty (queue : BucketQueue Item) : Bool := queue.top = queue.nBuckets

/-- The loop of `flb_bucket_queue_seek`, over the buckets from a place on. -/
def seekFrom : List (List Item) → Nat → Nat
  | [] :: rest, top => seekFrom rest (top + 1)
  | _, top => top

def seek (queue : BucketQueue Item) : BucketQueue Item :=
  { queue with top := seekFrom (queue.buckets.drop queue.top) queue.top }

def add (queue : BucketQueue Item) (item : Item) (priority : Nat) : BucketQueue Item × Int :=
  if queue.nBuckets ≤ priority then (queue, -1)
  else
    let queue := queue.seek
    ({ buckets := queue.buckets.modify priority (· ++ [item])
       top := if priority < queue.top then priority else queue.top
       nItems := queue.nItems + 1 }, 0)

def findMin (queue : BucketQueue Item) : BucketQueue Item × Option Item :=
  let queue := queue.seek
  if queue.isEmpty then (queue, none) else (queue, queue.buckets[queue.top]?.bind List.head?)

def deleteMin (queue : BucketQueue Item) : BucketQueue Item :=
  let queue := queue.seek
  if queue.isEmpty then queue
  else
    let queue := { queue with buckets := queue.buckets.modify queue.top List.tail }.seek
    { queue with nItems := queue.nItems - 1 }

def popMin (queue : BucketQueue Item) : BucketQueue Item × Option Item :=
  let (queue, item) := queue.findMin
  (queue.deleteMin, item)

/-- `mk_list_del` of an item that is queued. -/
def del [DecidableEq Item] (queue : BucketQueue Item) (item : Item) : BucketQueue Item :=
  { queue with buckets := queue.buckets.map fun bucket => bucket.filter (· ≠ item) }

def items (queue : BucketQueue Item) : List Item := queue.buckets.flatten

structure History (Item : Type) where
  queue : BucketQueue Item
  added : List Item := []
  popped : List Item := []
  deleted : List Item := []

inductive Op (Item : Type) where
  | add (item : Item) (priority : Nat)
  | findMin
  | popMin
  | del (item : Item)

def step [DecidableEq Item] (op : Op Item) (history : History Item) : History Item :=
  match op with
  | .add item priority =>
    let (queue, result) := history.queue.add item priority
    { history with queue, added := if result = 0 then history.added ++ [item] else history.added }
  | .findMin => { history with queue := history.queue.findMin.1 }
  | .popMin =>
    let (queue, item) := history.queue.popMin
    { history with queue, popped := history.popped ++ item.toList }
  | .del item => { history with queue := history.queue.del item, deleted := history.deleted ++ [item] }

def Admissible (history : History Item) : Op Item → Prop
  | .add item _ => item ∉ history.queue.items
  | .del item => item ∈ history.queue.items
  | _ => True

end BucketQueue

end FluentBit

/-! The bucket queue gives the earliest of the lowest priority, whatever leaves it behind its back:
the top is only a bound, and seeking makes it exact. -/

namespace FluentBit.BucketQueue

open List Bool

variable {Item : Type}

def specify [DecidableEq Item] (priorities : Nat) (entries : List (Nat × Item)) : Op Item → List (Nat × Item)
  | .add item priority => if priorities ≤ priority then entries else entries ++ [(priority, item)]
  | .findMin => entries
  | .popMin =>
    match PriorityOrder.next? Prod.fst entries with
    | none => entries
    | some entry => entries.filter (·.2 ≠ entry.2)
  | .del item => entries.filter (·.2 ≠ item)

def remaining [DecidableEq Item] (priorities : Nat) (ops : List (Op Item)) : List (Nat × Item) :=
  ops.foldl (specify priorities) []

structure Represents (priorities : Nat) (queue : BucketQueue Item) (entries : List (Nat × Item)) : Prop where
  sized : queue.buckets.length = priorities
  each : ∀ index bucket, queue.buckets[index]? = some bucket → bucket = (entries.filter (·.1 = index)).map Prod.snd
  ranked : ∀ entry ∈ entries, entry.1 < priorities
  distinct : (entries.map Prod.snd).Nodup
  inside : queue.top ≤ priorities
  below : ∀ entry ∈ entries, queue.top ≤ entry.1

variable {priorities : Nat} {queue : BucketQueue Item} {entries : List (Nat × Item)}

theorem represents_create (priorities : Nat) : Represents priorities (create Item priorities) [] := by
  constructor
  · exact length_replicate
  · intro index bucket found
    rw [eq_of_mem_replicate (mem_of_getElem? found)]
    rfl
  · simp
  · exact nodup_nil
  · exact Nat.le_refl _
  · simp

section

variable (represents : Represents priorities queue entries)
include represents

theorem Represents.bucket {index : Nat} (bound : index < priorities) :
    queue.buckets[index]? = some ((entries.filter (·.1 = index)).map Prod.snd) := by
  have inside : index < queue.buckets.length := represents.sized ▸ bound
  rw [List.getElem?_eq_getElem inside]
  exact congrArg some (represents.each index _ (List.getElem?_eq_getElem inside))

theorem Represents.mem_items (item : Item) : item ∈ queue.items ↔ item ∈ entries.map Prod.snd := by
  rw [items, mem_flatten]
  constructor
  · rintro ⟨bucket, member, inside⟩
    obtain ⟨index, found⟩ := mem_iff_getElem?.mp member
    rw [represents.each index bucket found] at inside
    obtain ⟨entry, kept, rfl⟩ := mem_map.mp inside
    exact mem_map_of_mem (mem_of_mem_filter kept)
  · intro inside
    obtain ⟨entry, member, rfl⟩ := mem_map.mp inside
    have found := represents.bucket (represents.ranked entry member)
    refine ⟨_, mem_of_getElem? found, mem_map_of_mem ?_⟩
    simpa using member

theorem Represents.items_perm : queue.items.Perm (entries.map Prod.snd) := by
  have once : queue.items.Nodup := by
    rw [items, nodup_flatten]
    constructor
    · intro bucket member
      obtain ⟨index, found⟩ := mem_iff_getElem?.mp member
      rw [represents.each index bucket found]
      exact (filter_sublist.map Prod.snd).nodup represents.distinct
    · rw [pairwise_iff_getElem]
      intro left right leftBound rightBound less item inLeft inRight
      rw [represents.each left _ (List.getElem?_eq_getElem leftBound)] at inLeft
      rw [represents.each right _ (List.getElem?_eq_getElem rightBound)] at inRight
      obtain ⟨first, firstKept, rfl⟩ := mem_map.mp inLeft
      obtain ⟨second, secondKept, same⟩ := mem_map.mp inRight
      rw [mem_filter, decide_eq_true_eq] at firstKept secondKept
      have one := inj_on_of_nodup_map represents.distinct secondKept.1 firstKept.1 same
      rw [← firstKept.2, ← secondKept.2, one] at less
      exact absurd less (Nat.lt_irrefl _)
  exact (perm_ext_iff_of_nodup once represents.distinct).mpr represents.mem_items

end

private theorem seekFrom_spec (rest : List (List Item)) (top : Nat) :
    top ≤ seekFrom rest top ∧ seekFrom rest top ≤ top + rest.length ∧
      (∀ index, index < seekFrom rest top - top → rest[index]? = some []) ∧
      ∀ bucket, rest[seekFrom rest top - top]? = some bucket → bucket ≠ [] := by
  induction rest generalizing top with
  | nil => simp [seekFrom]
  | cons bucket rest ih =>
    cases bucket with
    | nil =>
      obtain ⟨up, bound, passed, stopped⟩ := ih (top + 1)
      simp only [seekFrom, length_cons]
      have shift : seekFrom rest (top + 1) - top = (seekFrom rest (top + 1) - (top + 1)) + 1 := by omega
      refine ⟨by omega, by omega, ?_, ?_⟩
      · intro index less
        cases index with
        | zero => rfl
        | succ index => exact passed index (by omega)
      · intro bucket found
        rw [shift] at found
        exact stopped bucket found
    | cons item items =>
      simp only [seekFrom, Nat.sub_self, length_cons]
      refine ⟨Nat.le_refl _, by omega, ?_, ?_⟩
      · intro index less
        exact absurd less (Nat.not_lt_zero _)
      · intro bucket found
        cases found
        exact cons_ne_nil _ _

theorem Represents.seek (represents : Represents priorities queue entries) :
    Represents priorities queue.seek entries := by
  obtain ⟨up, bound, passed, -⟩ := seekFrom_spec (queue.buckets.drop queue.top) queue.top
  have sized := represents.sized
  have inside := represents.inside
  rw [length_drop] at bound
  constructor
  · exact sized
  · exact represents.each
  · exact represents.ranked
  · exact represents.distinct
  · simp only [BucketQueue.seek]
    omega
  · intro entry member
    by_contra lower
    have above := represents.below entry member
    simp only [BucketQueue.seek, Nat.not_le] at lower
    have empty := passed (entry.1 - queue.top) (by omega)
    rw [List.getElem?_drop, Nat.add_sub_cancel' above] at empty
    have holds := represents.each _ _ empty
    rw [eq_comm, map_eq_nil_iff, filter_eq_nil_iff] at holds
    exact holds entry member (by simp)

theorem isEmpty_iff : queue.isEmpty = true ↔ queue.top = queue.buckets.length := decide_eq_true_iff

theorem Represents.seek_top (represents : Represents priorities queue entries) :
    (queue.seek.isEmpty = true ∧ entries = []) ∨
      ∃ item rest, queue.seek.isEmpty = false ∧ queue.seek.buckets[queue.seek.top]? = some (item :: rest) ∧
        PriorityOrder.next? Prod.fst entries = some (queue.seek.top, item) := by
  obtain ⟨up, bound, -, stopped⟩ := seekFrom_spec (queue.buckets.drop queue.top) queue.top
  have sought := represents.seek
  have inside := sought.inside
  cases ended : queue.seek.isEmpty with
  | true =>
    left
    refine ⟨rfl, eq_nil_iff_forall_not_mem.mpr ?_⟩
    intro entry member
    have lower := sought.below entry member
    have upper := sought.ranked entry member
    have sized := sought.sized
    have last := isEmpty_iff.mp ended
    omega
  | false =>
    right
    have less : queue.seek.top < priorities := by
      have sized := sought.sized
      have notLast : queue.seek.top ≠ queue.seek.buckets.length := by
        intro last
        rw [isEmpty_iff.mpr last] at ended
        cases ended
      omega
    have found := sought.bucket less
    have nonempty := stopped ((entries.filter (·.1 = queue.seek.top)).map Prod.snd) (by
      rw [List.getElem?_drop, Nat.add_sub_cancel' up]
      exact found)
    rw [ne_eq, map_eq_nil_iff] at nonempty
    obtain ⟨entry, rest, level⟩ := exists_cons_of_ne_nil nonempty
    have member : entry ∈ entries.filter (·.1 = queue.seek.top) := level ▸ mem_cons_self
    have ranked : entry.1 = queue.seek.top := by simpa using of_mem_filter member
    refine ⟨entry.2, rest.map Prod.snd, rfl, ?_, ?_⟩
    · rw [found, level, map_cons]
    · rw [PriorityOrder.next?_of_level sought.below (congrArg List.head? level), ← ranked]

theorem Represents.findMin (represents : Represents priorities queue entries) :
    Represents priorities queue.findMin.1 entries ∧
      queue.findMin.2 = (PriorityOrder.next? Prod.fst entries).map Prod.snd := by
  unfold BucketQueue.findMin
  rcases represents.seek_top with ⟨empty, rfl⟩ | ⟨item, rest, filled, found, next⟩
  · simp only [empty, if_true]
    exact ⟨represents.seek, rfl⟩
  · simp only [filled, false_eq_true, if_false, found, next]
    exact ⟨represents.seek, rfl⟩

theorem Represents.add (represents : Represents priorities queue entries) {item : Item} {priority : Nat}
    (bound : priority < priorities) (new : item ∉ queue.items) :
    Represents priorities (queue.add item priority).1 (entries ++ [(priority, item)]) := by
  have sought := represents.seek
  have fresh : item ∉ entries.map Prod.snd := fun member => new ((represents.mem_items item).mpr member)
  have sized : queue.nBuckets = priorities := represents.sized
  unfold BucketQueue.add
  rw [if_neg (by rw [sized]; omega)]
  constructor
  · simpa using sought.sized
  · intro index bucket found
    simp only [filter_append, map_append]
    by_cases here : priority = index
    · subst here
      rw [List.getElem?_modify_eq, sought.bucket bound] at found
      cases found
      simp
    · rw [List.getElem?_modify_ne _ _ here] at found
      rw [sought.each index bucket found]
      simp [here]
  · intro entry member
    rw [mem_append, mem_singleton] at member
    cases member with
    | inl earlier => exact sought.ranked entry earlier
    | inr last => exact last ▸ bound
  · rw [map_append, nodup_append]
    refine ⟨sought.distinct, nodup_singleton _, ?_⟩
    rintro one member other last rfl
    rw [map_singleton, mem_singleton] at last
    rw [last] at member
    exact fresh member
  · have inside := sought.inside
    simp only
    split <;> omega
  · intro entry member
    have atMost : (if priority < queue.seek.top then priority else queue.seek.top) ≤ priority ∧
        (if priority < queue.seek.top then priority else queue.seek.top) ≤ queue.seek.top := by
      split <;> omega
    rw [mem_append, mem_singleton] at member
    cases member with
    | inl earlier => exact Nat.le_trans atMost.2 (sought.below entry earlier)
    | inr last => exact last ▸ atMost.1

section

variable (represents : Represents priorities queue entries)
include represents

theorem Represents.keep {buckets : List (List Item)} {top : Nat} (nItems : Nat) {kept : List (Nat × Item)}
    (fewer : kept.Sublist entries) (sized : buckets.length = priorities)
    (each : ∀ index bucket, buckets[index]? = some bucket → bucket = (kept.filter (·.1 = index)).map Prod.snd)
    (same : top = queue.top) : Represents priorities { buckets, top, nItems } kept := by
  constructor
  · exact sized
  · exact each
  · exact fun entry member => represents.ranked entry (fewer.subset member)
  · exact (fewer.map Prod.snd).nodup represents.distinct
  · exact same ▸ represents.inside
  · exact fun entry member => same ▸ represents.below entry (fewer.subset member)

theorem Represents.del [DecidableEq Item] (item : Item) :
    Represents priorities (queue.del item) (entries.filter (·.2 ≠ item)) := by
  apply represents.keep _ filter_sublist
  · rw [length_map]
    exact represents.sized
  · intro index bucket found
    rw [List.getElem?_map, Option.map_eq_some_iff] at found
    obtain ⟨old, oldFound, rfl⟩ := found
    rw [represents.each index old oldFound, filter_map, filter_filter, filter_filter]
    congr 1
    apply filter_congr
    intro entry _
    simp [Bool.and_comm]
  · rfl

theorem Represents.tail [DecidableEq Item] {index : Nat} {item : Item} {rest : List Item}
    (found : queue.buckets[index]? = some (item :: rest)) :
    queue.buckets.modify index List.tail = (queue.del item).buckets := by
  apply ext_getElem?
  intro place
  simp only [BucketQueue.del, List.getElem?_map]
  cases held : queue.buckets[place]? with
  | none =>
    have outside : queue.buckets.length ≤ place := List.getElem?_eq_none_iff.mp held
    rw [List.getElem?_eq_none_iff.mpr (by simpa using outside)]
    rfl
  | some bucket =>
    have holds := represents.each place bucket held
    have first := represents.each index _ found
    by_cases here : index = place
    · subst here
      rw [found] at held
      cases held
      have once : (item :: rest).Nodup := by
        rw [first]
        exact (filter_sublist.map Prod.snd).nodup represents.distinct
      rw [List.getElem?_modify_eq, found]
      have others : rest.filter (· ≠ item) = rest := by
        rw [filter_eq_self]
        intro other member
        simpa using fun same : other = item => (nodup_cons.mp once).1 (same ▸ member)
      have dropped : (item :: rest).filter (· ≠ item) = rest := by
        rw [filter_cons_of_neg (by simp), others]
      rw [Option.map_some, dropped]
      rfl
    · rw [List.getElem?_modify_ne _ _ here, held, Option.map_some, Option.some.injEq, eq_comm, filter_eq_self]
      intro other member
      obtain ⟨entry, inBucket, rfl⟩ := mem_map.mp (holds ▸ member)
      obtain ⟨head, inIndex, headed⟩ := mem_map.mp (first ▸ mem_cons_self : item ∈ _)
      rw [mem_filter, decide_eq_true_eq] at inBucket inIndex
      rw [decide_eq_true_eq]
      intro same
      have one := inj_on_of_nodup_map represents.distinct inBucket.1 inIndex.1 (same.trans headed.symm)
      exact here (inIndex.2.symm.trans (one ▸ inBucket.2))

theorem Represents.deleteMin [DecidableEq Item] :
    Represents priorities queue.deleteMin (specify priorities entries .popMin) := by
  have sought := represents.seek
  unfold BucketQueue.deleteMin specify
  rcases represents.seek_top with ⟨empty, rfl⟩ | ⟨item, rest, filled, found, next⟩
  · simp only [empty, if_true]
    exact sought
  · simp only [filled, false_eq_true, if_false, next]
    rw [sought.tail found]
    have removed := (sought.del item).seek
    exact removed.keep _ (List.Sublist.refl _) removed.sized removed.each rfl

end

section

variable [DecidableEq Item] {history : History Item}

def Accounts (history : History Item) (entries : List (Nat × Item)) : Prop :=
  history.added.Perm (history.popped ++ history.deleted ++ entries.map Prod.snd)

private theorem perm_filter_item (distinct : (entries.map Prod.snd).Nodup) {entry : Nat × Item}
    (member : entry ∈ entries) :
    (entries.map Prod.snd).Perm (entry.2 :: (entries.filter (·.2 ≠ entry.2)).map Prod.snd) := by
  have erased := perm_cons_erase (mem_map_of_mem (f := Prod.snd) member)
  rw [List.Nodup.erase_eq_filter distinct, filter_map] at erased
  have same : entries.filter ((· != entry.2) ∘ Prod.snd) = entries.filter (·.2 ≠ entry.2) := by
    apply filter_congr
    intro other _
    rw [Bool.eq_iff_iff]
    simp
  rwa [same] at erased

section

variable (represents : Represents priorities history.queue entries) (accounts : Accounts history entries)
include represents accounts

private theorem step_represents {op : Op Item} (admitted : Admissible history op) :
    Represents priorities (step op history).queue (specify priorities entries op) ∧
      Accounts (step op history) (specify priorities entries op) := by
  cases op with
  | add item priority =>
    simp only [step, specify]
    have sized : history.queue.nBuckets = priorities := represents.sized
    by_cases refused : priorities ≤ priority
    · have unchanged : history.queue.add item priority = (history.queue, -1) := by
        unfold BucketQueue.add
        rw [if_pos (sized.symm ▸ refused)]
      rw [if_pos refused, unchanged]
      exact ⟨represents, accounts⟩
    · have taken : (history.queue.add item priority).2 = 0 := by
        unfold BucketQueue.add
        rw [if_neg (sized.symm ▸ refused)]
      rw [if_neg refused]
      refine ⟨represents.add (Nat.not_le.mp refused) admitted, ?_⟩
      simp only [Accounts, taken, if_true, map_append, map_singleton]
      rw [← append_assoc]
      exact accounts.append_right _
  | findMin => exact ⟨represents.findMin.1, accounts⟩
  | popMin =>
    obtain ⟨found, item⟩ := represents.findMin
    refine ⟨found.deleteMin, ?_⟩
    simp only [Accounts, step, BucketQueue.popMin, item, specify]
    cases next : PriorityOrder.next? Prod.fst entries with
    | none =>
      simp only [Option.map_none, Option.toList_none, append_nil]
      exact accounts
    | some entry =>
      have member := (PriorityOrder.next?_eq_some_iff.mp next).mem
      apply accounts.trans
      simp only [Option.map_some, Option.toList_some, append_assoc]
      apply List.Perm.append_left
      exact ((perm_filter_item represents.distinct member).append_left _).trans perm_middle
  | del item =>
    obtain ⟨entry, member, rfl⟩ := mem_map.mp ((represents.mem_items item).mp admitted)
    refine ⟨represents.del entry.2, ?_⟩
    apply accounts.trans
    simp only [step, specify, append_assoc]
    apply List.Perm.append_left
    apply List.Perm.append_left
    exact perm_filter_item represents.distinct member

private theorem run_represents (ops : List (Op Item)) (admitted : Runs.Admits step Admissible history ops) :
    Represents priorities (Runs.after step history ops).queue (ops.foldl (specify priorities) entries) ∧
      Accounts (Runs.after step history ops) (ops.foldl (specify priorities) entries) := by
  induction ops generalizing history entries with
  | nil => exact ⟨represents, accounts⟩
  | cons op rest ih =>
    obtain ⟨first, later⟩ := admitted
    obtain ⟨stepped, counted⟩ := step_represents represents accounts first
    exact ih stepped counted later

end

/-- After every run, the item that is found or popped is the earliest of the lowest priority that
remains, there is none exactly when the queue is empty, and each item that was added was popped
or deleted or is still there, once. -/
theorem pop_min_earliest (priorities : Nat) (ops : List (Op Item))
    (admitted : Runs.Admits step Admissible { queue := create Item priorities } ops) :
    let history := Runs.after step { queue := create Item priorities } ops
    (∀ item, history.queue.findMin.2 = some item ↔
      ∃ priority, PriorityOrder.IsNext Prod.fst (remaining priorities ops) (priority, item)) ∧
    history.queue.popMin.2 = history.queue.findMin.2 ∧ (history.queue.findMin.2 = none ↔ history.queue.items = []) ∧
    history.added.Perm (history.popped ++ history.deleted ++ history.queue.items) := by
  intro history
  have start : Accounts { queue := create Item priorities } [] := List.Perm.refl []
  obtain ⟨represents, accounts⟩ := run_represents (represents_create priorities) start ops admitted
  have found := represents.findMin.2
  have items : history.queue.items.Perm ((remaining priorities ops).map Prod.snd) := represents.items_perm
  refine ⟨?_, rfl, ?_, ?_⟩
  · intro item
    rw [found, Option.map_eq_some_iff]
    constructor
    · rintro ⟨⟨priority, _⟩, next, rfl⟩
      exact ⟨priority, PriorityOrder.next?_eq_some_iff.mp next⟩
    · rintro ⟨priority, next⟩
      exact ⟨(priority, item), PriorityOrder.next?_eq_some_iff.mpr next, rfl⟩
  · rw [found, Option.map_eq_none_iff, PriorityOrder.next?_eq_none_iff]
    constructor
    · intro empty
      have none := items
      rw [remaining, empty] at none
      exact none.eq_nil
    · intro empty
      rw [empty] at items
      exact map_eq_nil_iff.mp items.symm.eq_nil
  · exact accounts.trans (items.symm.append_left _)

end

/-- Two items of one priority and one of a lower one, that is deleted behind the queue's back. -/
theorem pop_min_earliest_sample :
    PriorityOrder.IsNext Prod.fst (remaining 8 [Op.add 1 5, .add 2 5, .add 3 0, .del 3]) (5, 1) := by
  have found := (pop_min_earliest 8 [Op.add 1 5, .add 2 5, .add 3 0, .del 3]
    (by simp [Runs.Admits, Admissible, step, items, create, BucketQueue.add, seek, seekFrom, nBuckets])).1 1
  obtain ⟨priority, isNext⟩ := found.mp (by decide)
  have five : priority = 5 := by
    have member := isNext.mem
    simpa [remaining, specify] using member
  exact five ▸ isNext

end FluentBit.BucketQueue
