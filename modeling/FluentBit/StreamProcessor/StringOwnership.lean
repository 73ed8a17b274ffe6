import FluentBit.StreamProcessor.Hopping

/-! Who holds the strings of a task. Every string is held by one node or was destroyed once,
as long as no hop copies a node that holds one. -/

set_option autoImplicit false

namespace FluentBit.StreamProcessor

open List
open Multiline (sdsEq)

structure Adds (memory later : Memory) (before after : List Handle) : Prop where
  grows : Grows memory later
  perm : after.Perm (before ++
    List.range' memory.strings.length (later.strings.length - memory.strings.length))

section

variable {memory later last : Memory} {before after final : List Handle}

theorem Adds.refl (memory : Memory) (held : List Handle) : Adds memory memory held held := ⟨.refl memory, by simp⟩

theorem range'_grows (first : Grows memory later) (second : Grows later last) :
    List.range' memory.strings.length (later.strings.length - memory.strings.length) ++
        List.range' later.strings.length (last.strings.length - later.strings.length) =
      List.range' memory.strings.length (last.strings.length - memory.strings.length) := by
  have one := first.length
  have two := second.length
  have joined := @List.range'_append_1 memory.strings.length (later.strings.length - memory.strings.length)
    (last.strings.length - later.strings.length)
  rw [show memory.strings.length + (later.strings.length - memory.strings.length) = later.strings.length by omega,
    show later.strings.length - memory.strings.length + (last.strings.length - later.strings.length) =
      last.strings.length - memory.strings.length by omega] at joined
  exact joined

theorem Adds.trans (first : Adds memory later before after) (second : Adds later last after final) :
    Adds memory last before final := by
  refine ⟨first.grows.trans second.grows, ?_⟩
  rw [← range'_grows first.grows second.grows, ← append_assoc]
  exact second.perm.trans (first.perm.append_right _)

theorem Adds.append {more rest : List Handle} (first : Adds memory later before after)
    (second : Adds later last more rest) : Adds memory last (before ++ more) (after ++ rest) := by
  refine ⟨first.grows.trans second.grows, ?_⟩
  rw [← range'_grows first.grows second.grows]
  refine (first.perm.append second.perm).trans ?_
  simp only [append_assoc]
  apply List.Perm.append_left
  rw [← append_assoc, ← append_assoc]
  exact perm_append_comm.append_right _

theorem adds_create (text : Bytes) :
    Adds memory (memory.create text).2 [] [(memory.create text).1] := by
  refine ⟨.create text memory, ?_⟩
  simp [Memory.create]

end

/-! ### The strings of a record -/

def Tidy (nums : List AggregateNum) : Prop := ∀ num ∈ nums, num.string ≠ none → num.type = .string

section

variable {cmd : Cmd} {map : Map}

def Worded (cmd : Cmd) (map : Map) : Prop :=
  ∀ key ∈ cmd.keys, key.aggrFunc = none → ∀ entry ∈ map, ∀ value, valueFor map entry.1 key = some value →
    ∃ text, value = .str text

def Single (cmd : Cmd) (map : Map) : Prop :=
  ∀ key ∈ cmd.gbKeys, ∀ text, keyToValue key.name key.subkeys map = some (.str text) →
    cmd.stringToNumber text = none → (map.filter fun entry => sdsEq key.name entry.1).length ≤ 1

structure Retains (num after : AggregateNum) : Prop where
  string : after.string = num.string
  type : after.type = .string ↔ num.type = .string

variable (num : AggregateNum)

theorem Retains.refl : Retains num num := ⟨rfl, .rfl⟩

theorem Retains.trans {first second third : AggregateNum} (left : Retains first second)
    (right : Retains second third) : Retains first third :=
  ⟨right.string.trans left.string, right.type.trans left.type⟩

theorem Retains.handle {num after : AggregateNum} (retains : Retains num after) : after.handle = num.handle := by
  unfold AggregateNum.handle
  rw [retains.string]
  by_cases type : num.type = .string
  · rw [if_pos type, if_pos (retains.type.mpr type)]
  · rw [if_neg type, if_neg (fun same => type (retains.type.mp same))]

variable (number : Number)

theorem promote_retains : Retains num (num.promote number) := by
  cases number with
  | int ival => exact .refl num
  | float dval =>
    unfold AggregateNum.promote
    simp only
    split
    next promoted => exact ⟨rfl, by simp [promoted.2]⟩
    · exact .refl num

theorem addSum_retains : Retains num (num.addSum number) := by
  unfold AggregateNum.addSum
  split
  next type => exact ⟨rfl, by simp [type]⟩
  next type => exact ⟨rfl, by simp [type]⟩
  next type => exact ⟨rfl, by simp [type]⟩
  next type => exact ⟨rfl, by simp [type]⟩
  · exact .refl num

theorem retains_of_ite {num left right : AggregateNum} (smaller : Prop) [Decidable smaller] (first : Retains num left)
    (second : Retains num right) : Retains num (if smaller then left else right) := by
  split
  · exact first
  · exact second

theorem addMin_retains : Retains num (num.addMin number) := by
  unfold AggregateNum.addMin
  split
  next type => exact retains_of_ite _ ⟨rfl, by simp [type]⟩ (.refl num)
  next type => exact retains_of_ite _ ⟨rfl, by simp [type]⟩ (.refl num)
  · exact .refl num

theorem addMax_retains : Retains num (num.addMax number) := by
  unfold AggregateNum.addMax
  split
  next type => exact retains_of_ite _ ⟨rfl, by simp [type]⟩ (.refl num)
  next type => exact retains_of_ite _ ⟨rfl, by simp [type]⟩ (.refl num)
  · exact .refl num

theorem add_retains (func : AggrFunc) (num : AggregateNum) (number : Number) : Retains num (num.add func number) := by
  cases func with
  | avg | sum => exact addSum_retains num number
  | count => exact .refl num
  | min => exact addMin_retains num number
  | max => exact addMax_retains num number

theorem remove_retains (func : AggrFunc) (num prev : AggregateNum) : Retains num (num.remove func prev) := by
  have summed : Retains num (num.removeSum prev) := by
    unfold AggregateNum.removeSum
    split
    next type => exact ⟨rfl, by simp [type]⟩
    next type => exact ⟨rfl, by simp [type]⟩
    · exact .refl num
  cases func with
  | avg | sum => exact summed
  | count | min | max => exact .refl num

theorem removeNums_retains (keys : List CmdKey) (nums prevs : List AggregateNum) :
    List.Forall₂ Retains nums (removeNums keys nums prevs) := by
  induction keys generalizing nums prevs with
  | nil => exact forall₂_same.mpr fun num _ => .refl num
  | cons key keys ih =>
    cases nums with
    | nil => exact .nil
    | cons num nums =>
      cases prevs with
      | nil => exact forall₂_same.mpr fun num _ => .refl num
      | cons prev prevs =>
        refine .cons ?_ (ih nums prevs)
        cases key.aggrFunc with
        | none => exact .refl num
        | some func => exact remove_retains func num prev

variable {after nums : List AggregateNum} {start : Memory}

theorem handles_of_retains (retains : List.Forall₂ Retains nums after) :
    after.filterMap AggregateNum.handle = nums.filterMap AggregateNum.handle := by
  induction retains with
  | nil => rfl
  | cons here _ ih => rw [filterMap_cons, filterMap_cons, here.handle, ih]

theorem tidy_of_retains (retains : List.Forall₂ Retains nums after) (tidy : Tidy nums) : Tidy after := by
  intro num member held
  obtain ⟨earlier, among, same⟩ := exists_of_forall₂ retains member
  exact same.type.mpr (tidy earlier among (same.string ▸ held))

theorem Node.handles_remove (node prev : Node) : (node.remove cmd prev).handles = node.handles := by
  unfold Node.handles Node.remove
  rw [handles_of_retains (removeNums_retains cmd.keys node.nums prev.nums)]

theorem Tidy.string_none {num : AggregateNum} (tidy : Tidy nums) (member : num ∈ nums) (handle : num.handle = none) :
    num.string = none := by
  by_contra held
  have type := tidy num member held
  rw [AggregateNum.handle, if_pos type] at handle
  exact held handle

theorem tidy_cons {num : AggregateNum} : Tidy (num :: nums) ↔ (num.string ≠ none → num.type = .string) ∧ Tidy nums := by
  unfold Tidy
  simp

theorem handles_cons :
    (num :: nums).filterMap AggregateNum.handle = num.handle.toList ++ nums.filterMap AggregateNum.handle := by
  rw [filterMap_cons]
  cases num.handle with
  | none => rfl
  | some handle => rfl

theorem setGroupNum_adds {value : Value} {num : AggregateNum} (memory : Memory) (unused : num.handle = none)
    (blank : num.string = none) : Adds memory (setGroupNum cmd value num memory).2 num.handle.toList
        (setGroupNum cmd value num memory).1.handle.toList ∧
      ((setGroupNum cmd value num memory).1.string ≠ none → (setGroupNum cmd value num memory).1.type = .string) := by
  rw [unused]
  unfold setGroupNum
  split
  · exact ⟨by simpa [AggregateNum.handle] using Adds.refl memory [], fun held => absurd blank held⟩
  · exact ⟨by simpa [AggregateNum.handle] using Adds.refl memory [], fun held => absurd blank held⟩
  next text _ => exact ⟨by simpa [AggregateNum.handle] using adds_create text, fun _ => rfl⟩
  · exact ⟨by simpa [AggregateNum.handle] using Adds.refl memory [], fun held => absurd blank held⟩
  · exact ⟨by simpa [unused] using Adds.refl memory [], fun held => absurd blank held⟩

theorem Extracted.unused {memory : Memory} {seen : List Bytes} {key : GbKey} {num : AggregateNum}
    (extracted : Extracted cmd map start memory seen key num)
    (first : seen.any (fun entry => sdsEq key.name entry) = true → ∀ text, groupValueOf cmd map key ≠ .str text) :
    num.handle = none := by
  cases before : seen.any (fun entry => sdsEq key.name entry) with
  | false =>
    rw [extracted.unseen before]
    rfl
  | true =>
    have value := extracted.seen before
    unfold AggregateNum.handle
    rw [if_neg]
    intro type
    apply first before (cString ((num.string.map memory.text).getD []))
    rw [← value]
    unfold AggregateNum.value
    rw [type]

theorem extractEntry_adds (entry : Bytes) (seen : List Bytes) (keys : List GbKey) (nums : List AggregateNum)
    (found : Nat) (memory : Memory) (older : Grows start memory)
    (extracted : List.Forall₂ (Extracted cmd map start memory seen) keys nums) (tidy : Tidy nums)
    (first : ∀ key ∈ keys, sdsEq key.name entry = true → seen.any (fun entry => sdsEq key.name entry) = true →
      ∀ text, groupValueOf cmd map key ≠ .str text) :
    Adds memory (extractEntry cmd map entry keys nums (found, memory)).2.2 (nums.filterMap AggregateNum.handle)
        ((extractEntry cmd map entry keys nums (found, memory)).1.filterMap AggregateNum.handle) ∧
      Tidy (extractEntry cmd map entry keys nums (found, memory)).1 := by
  induction keys generalizing nums found memory with
  | nil =>
    cases extracted
    exact ⟨.refl _ _, tidy⟩
  | cons key keys ih =>
    cases extracted with
    | @cons _ num _ nums here later =>
      have rest : ∀ other ∈ keys, sdsEq other.name entry = true →
          seen.any (fun entry => sdsEq other.name entry) = true →
          ∀ text, groupValueOf cmd map other ≠ .str text :=
        fun other member => first other (mem_cons_of_mem _ member)
      unfold extractEntry
      split
      next missing =>
        obtain ⟨adds, after⟩ := ih nums found memory older later (tidy_cons.mp tidy).2 rest
        simp only [handles_cons]
        exact ⟨(Adds.refl memory _).append adds, tidy_cons.mpr ⟨(tidy_cons.mp tidy).1, after⟩⟩
      next value present =>
        obtain ⟨named, found_eq⟩ : sdsEq key.name entry = true ∧
            keyToValue key.name key.subkeys map = some value := by simpa using present
        have unused := here.unused (first key mem_cons_self named)
        obtain ⟨noted, string⟩ := @setGroupNum_adds cmd value num memory unused
          (tidy.string_none mem_cons_self unused)
        have grows := (setGroupNum_extracted here older named found_eq).1
        obtain ⟨adds, after⟩ := ih nums (found + 1) (setGroupNum cmd value num memory).2 (older.trans grows)
          (later.imp fun _ _ extracted => extracted.grows grows) (tidy_cons.mp tidy).2 rest
        simp only [handles_cons]
        exact ⟨noted.append adds, tidy_cons.mpr ⟨string, after⟩⟩

theorem Single.first (single : Single cmd map) {done rest : Map} {entry : Bytes × Value}
    (split : map = done ++ entry :: rest) : ∀ key ∈ cmd.gbKeys, sdsEq key.name entry.1 = true →
      (done.map Prod.fst).any (fun entry => sdsEq key.name entry) = true →
      ∀ text, groupValueOf cmd map key ≠ .str text := by
  intro key member named before text grouped
  have given : ∃ text, keyToValue key.name key.subkeys map = some (.str text) ∧ cmd.stringToNumber text = none := by
    unfold groupValueOf at grouped
    split at grouped
    · cases grouped
    next value found =>
      unfold asGroup at grouped
      split at grouped
      · cases grouped
      · cases grouped
      next text number => exact ⟨text, found, number⟩
      · cases grouped
      · cases grouped
  obtain ⟨text, found, unconverted⟩ := given
  have once := single key member text found unconverted
  obtain ⟨_, among, same⟩ := any_eq_true.mp before
  obtain ⟨earlier, there, rfl⟩ := mem_map.mp among
  have counted : 0 < (done.filter fun entry => sdsEq key.name entry.1).length :=
    length_pos_of_mem (mem_filter.mpr ⟨there, same⟩)
  rw [split, filter_append, filter_cons, if_pos named, length_append, length_cons] at once
  omega

theorem extractGroup_adds (single : Single cmd map) (start : Memory) :
    Adds start (extractGroup cmd map start).2.2 [] ((extractGroup cmd map start).1.filterMap AggregateNum.handle) ∧
      Tidy (extractGroup cmd map start).1 := by
  have loop : ∀ (entries done : Map) (nums : List AggregateNum) (found : Nat) (memory : Memory),
      map = done ++ entries → Adds start memory [] (nums.filterMap AggregateNum.handle) → Tidy nums →
      List.Forall₂ (Extracted cmd map start memory (done.map Prod.fst)) cmd.gbKeys nums →
      ∃ after count later,
        entries.foldl (fun state entry => extractEntry cmd map entry.1 cmd.gbKeys state.1 state.2)
          (nums, (found, memory)) = (after, count, later) ∧
        Adds start later [] (after.filterMap AggregateNum.handle) ∧ Tidy after := by
    intro entries
    induction entries with
    | nil =>
      intro done nums found memory _ adds tidy _
      exact ⟨nums, found, memory, rfl, adds, tidy⟩
    | cons entry entries ih =>
      intro done nums found memory split adds tidy extracted
      obtain ⟨rest, _, _⟩ := extractEntry_extracted entry.1 (done.map Prod.fst) cmd.gbKeys nums found memory
        adds.grows extracted
      obtain ⟨more, after⟩ := extractEntry_adds entry.1 (done.map Prod.fst) cmd.gbKeys nums found memory
        adds.grows extracted tidy (single.first split)
      exact ih (done ++ [entry]) _ _ _ (by simpa using split) (adds.trans more) after (by simpa using rest)
  obtain ⟨after, count, later, folded, adds, tidy⟩ := loop map [] _ 0 start rfl
    (by simpa [AggregateNum.zero, AggregateNum.handle] using Adds.refl start []) (by simp [Tidy, AggregateNum.zero])
    extracted_zero
  have result : extractGroup cmd map start = (after, count, later) := folded
  rw [result]
  exact ⟨adds, tidy⟩

theorem addValue_adds {key : CmdKey} {value : Value} {num : AggregateNum} (memory : Memory)
    (string : num.string ≠ none → num.type = .string) (worded : key.aggrFunc = none → ∃ text, value = .str text) :
    Adds memory (addValue cmd key value num memory).2 num.handle.toList
        (addValue cmd key value num memory).1.handle.toList ∧ ((addValue cmd key value num memory).1.string ≠ none →
        (addValue cmd key value num memory).1.type = .string) := by
  unfold addValue
  cases function : key.aggrFunc with
  | none =>
    obtain ⟨text, rfl⟩ := worded function
    simp only [setNum]
    cases held : num.string with
    | some handle =>
      have type := string (by simp [held])
      exact ⟨by simpa [AggregateNum.handle, type, held] using Adds.refl memory [handle], fun _ => rfl⟩
    | none =>
      have unused : num.handle = none := by simp [AggregateNum.handle, held]
      rw [unused]
      exact ⟨by simpa [AggregateNum.handle] using adds_create text, fun _ => rfl⟩
  | some func =>
    cases objectToNumber cmd value with
    | none => exact ⟨.refl _ _, string⟩
    | some number =>
      have retains := (promote_retains num number).trans (add_retains func _ number)
      rw [retains.handle, retains.string]
      exact ⟨.refl _ _, fun held => retains.type.mpr (string held)⟩

theorem addEntry_adds (entry : Bytes) (keys : List CmdKey) (nums : List AggregateNum) (memory : Memory)
    (tidy : Tidy nums) (worded : ∀ key ∈ keys, key.aggrFunc = none → ∀ value, valueFor map entry key = some value →
      ∃ text, value = .str text) :
    Adds memory (addEntry cmd map entry keys nums memory).2 (nums.filterMap AggregateNum.handle)
        ((addEntry cmd map entry keys nums memory).1.filterMap AggregateNum.handle) ∧
      Tidy (addEntry cmd map entry keys nums memory).1 := by
  induction keys generalizing nums memory with
  | nil => exact ⟨.refl _ _, tidy⟩
  | cons key keys ih =>
    cases nums with
    | nil => exact ⟨.refl _ _, tidy⟩
    | cons num nums =>
      obtain ⟨string, others⟩ := tidy_cons.mp tidy
      have rest := fun other member => worded other (mem_cons_of_mem key member)
      unfold addEntry
      split
      · obtain ⟨adds, after⟩ := ih nums memory others rest
        simp only [handles_cons]
        exact ⟨(Adds.refl memory _).append adds, tidy_cons.mpr ⟨string, after⟩⟩
      next value found =>
        obtain ⟨added, kept⟩ := @addValue_adds cmd key value num memory string
          (fun function => worded key mem_cons_self function value found)
        obtain ⟨adds, after⟩ := ih nums (addValue cmd key value num memory).2 others rest
        simp only [handles_cons]
        exact ⟨added.append adds, tidy_cons.mpr ⟨kept, after⟩⟩

theorem addMap_adds (worded : Worded cmd map) (nums : List AggregateNum) (memory : Memory) (tidy : Tidy nums) :
    Adds memory (addMap cmd map nums memory).2 (nums.filterMap AggregateNum.handle)
        ((addMap cmd map nums memory).1.filterMap AggregateNum.handle) ∧ Tidy (addMap cmd map nums memory).1 := by
  have loop : ∀ (entries : Map) (nums : List AggregateNum) (memory : Memory), entries ⊆ map → Tidy nums →
      ∃ after later, entries.foldl (fun state entry => addEntry cmd map entry.1 cmd.keys state.1 state.2)
          (nums, memory) = (after, later) ∧
        Adds memory later (nums.filterMap AggregateNum.handle) (after.filterMap AggregateNum.handle) ∧
        Tidy after := by
    intro entries
    induction entries with
    | nil =>
      intro nums memory _ tidy
      exact ⟨nums, memory, rfl, .refl _ _, tidy⟩
    | cons entry entries ih =>
      intro nums memory among tidy
      obtain ⟨adds, kept⟩ := addEntry_adds entry.1 cmd.keys nums memory tidy
        (fun key member function => worded key member function entry (among mem_cons_self))
      obtain ⟨after, later, folded, more, final⟩ := ih _ _ (fun _ member => among (mem_cons_of_mem _ member)) kept
      exact ⟨after, later, folded, adds.trans more, final⟩
  obtain ⟨after, later, folded, adds, final⟩ := loop map nums memory (List.Subset.refl map) tidy
  have result : addMap cmd map nums memory = (after, later) := folded
  rw [result]
  exact ⟨adds, final⟩

end

/-! ### Tasks -/

def Task.live (task : Task) : List Node := task.nodes ++ task.slots.flatMap Slot.nodes

def Node.stored (node : Node) : List Handle := (node.nums ++ node.groupbyNums).filterMap AggregateNum.string

def Node.Tidy (node : Node) : Prop := StreamProcessor.Tidy (node.nums ++ node.groupbyNums)

structure Owned (task : Task) : Prop where
  sound : task.faulted = false
  once : (task.nodes.flatMap Node.handles ++ task.memory.released).Perm (List.range task.memory.strings.length)
  tidy : ∀ node ∈ task.live, node.Tidy
  plain : ∀ slot ∈ task.slots, ∀ node ∈ slot.nodes, node.handles = []
  gone : task.destroyed = true → task.live = []

section

variable {cmd : Cmd} {task : Task} {memory later : Memory} {nodes : List Node} {node : Node}

theorem tidy_append {first second : List AggregateNum} : Tidy (first ++ second) ↔ Tidy first ∧ Tidy second := by
  simp only [Tidy, mem_append]
  constructor
  · intro all
    exact ⟨fun num member => all num (.inl member), fun num member => all num (.inr member)⟩
  · intro both num member
    rcases member with left | right
    · exact both.1 num left
    · exact both.2 num right

theorem Node.Tidy.stored (tidy : node.Tidy) : node.stored = node.handles := by
  unfold Node.stored Node.handles
  rw [← filterMap_append]
  apply filterMap_congr
  intro num member
  unfold AggregateNum.handle
  split
  · rfl
  next other =>
    by_contra string
    exact other (tidy num member string)

variable {nums : List AggregateNum}

theorem dangling_of_apart (apart : ∀ handle ∈ nums.filterMap AggregateNum.handle, handle ∉ memory.released) :
    memory.dangling nums = false := by
  unfold Memory.dangling
  rw [any_eq_false]
  intro handle member
  simpa using apart handle member

theorem Node.undangling (apart : ∀ handle ∈ node.handles, handle ∉ memory.released) :
    memory.dangling node.groupbyNums = false :=
  dangling_of_apart fun handle member => apart handle (mem_append_right _ member)

theorem Adds.owned {before after : List Handle} (adds : Adds memory later before after) (held : List Handle)
    (once : (held ++ before ++ memory.released).Perm (List.range memory.strings.length)) :
    (held ++ after ++ later.released).Perm (List.range later.strings.length) := by
  have length := adds.grows.length
  have range : List.range later.strings.length = List.range memory.strings.length ++
      List.range' memory.strings.length (later.strings.length - memory.strings.length) := by
    have joined := @List.range'_append_1 0 memory.strings.length (later.strings.length - memory.strings.length)
    rw [Nat.zero_add, Nat.add_sub_cancel' length] at joined
    rw [range_eq_range', range_eq_range']
    exact joined.symm
  rw [range, adds.grows.released]
  rw [perm_iff_count] at once ⊢
  have more := perm_iff_count.mp adds.perm
  intro handle
  have here := once handle
  have there := more handle
  simp only [count_append] at here there ⊢
  omega

theorem Owned.apart (owned : Owned task) :
    ∀ node ∈ task.nodes, ∀ handle ∈ node.handles, handle ∉ task.memory.released := by
  intro node member handle among released
  have nodup := owned.once.nodup_iff.mpr nodup_range
  exact (disjoint_of_nodup_append nodup) (mem_flatMap.mpr ⟨node, member, among⟩) released

theorem Owned.released_lt (owned : Owned task) : ∀ handle ∈ task.memory.released, handle < task.memory.strings.length := by
  intro handle member
  exact mem_range.mp (owned.once.mem_iff.mp (mem_append_right _ member))

variable {after : Node} {kept : List Node}

theorem Owned.replace {place : Nat} (owned : Owned task) (records : BitVec 32) (here : task.nodes[place]? = some node)
    (adds : Adds task.memory later node.handles after.handles) (tidy : after.Tidy) (running : task.destroyed = false) :
    Owned { task with records, nodes := task.nodes.set place after, memory := later } := by
  obtain ⟨before, rest, split, replaced⟩ := split_at here
  have old := owned.once
  rw [split] at old
  constructor
  · exact owned.sound
  · have permuted : (before.flatMap Node.handles ++ rest.flatMap Node.handles ++ node.handles ++
        task.memory.released).Perm (List.range task.memory.strings.length) := by
      refine .trans (.append_right _ ?_) old
      rw [flatMap_append, flatMap_cons, append_assoc]
      exact perm_append_comm.append_left _
    refine .trans (.append_right _ ?_) (adds.owned _ permuted)
    simp only [replaced, flatMap_append, flatMap_cons, append_assoc]
    exact perm_append_comm.append_left _
  · intro other member
    rcases mem_append.mp member with window | slot
    · rcases mem_or_eq_of_mem_set window with kept | rfl
      · exact owned.tidy other (mem_append_left _ kept)
      · exact tidy
    · exact owned.tidy other (mem_append_right _ slot)
  · exact owned.plain
  · intro closed
    rw [running] at closed
    cases closed

theorem Owned.discard (owned : Owned task) (adds : Adds task.memory later [] (nums.filterMap AggregateNum.handle)) :
    Owned { task with memory := later.destroy (nums.filterMap AggregateNum.handle) } := by
  constructor
  · exact owned.sound
  · have once := adds.owned (task.nodes.flatMap Node.handles) (by simpa using owned.once)
    refine .trans ?_ once
    simp only [Memory.destroy, append_assoc]
    exact perm_append_comm.append_left _
  · exact owned.tidy
  · exact owned.plain
  · exact owned.gone

theorem Owned.create (owned : Owned task) (cmd : Cmd)
    (adds : Adds task.memory later [] (nums.filterMap AggregateNum.handle)) (tidy : Tidy nums)
    (running : task.destroyed = false) :
    Owned { task with nodes := task.nodes ++ [.create cmd nums], memory := later } := by
  have handles : (Node.create cmd nums).handles = nums.filterMap AggregateNum.handle := by
    simp [Node.handles, Node.create, AggregateNum.handle, AggregateNum.zero]
  constructor
  · exact owned.sound
  · have once := adds.owned (task.nodes.flatMap Node.handles) (by simpa using owned.once)
    simpa [handles] using once
  · intro other member
    simp only [Task.live, append_assoc, mem_append, mem_singleton] at member
    rcases member with old | rfl | slot
    · exact owned.tidy other (mem_append_left _ old)
    · exact tidy_append.mpr ⟨by simp [Tidy, Node.create, AggregateNum.zero], tidy⟩
    · exact owned.tidy other (mem_append_right _ slot)
  · exact owned.plain
  · intro closed
    rw [running] at closed
    cases closed

theorem Owned.processAggregateData {map : Map} (owned : Owned task) (single : Single cmd map)
    (running : task.destroyed = false) :
    Owned (processAggregateData cmd map task).2 ∧ (processAggregateData cmd map task).2.destroyed = false := by
  unfold StreamProcessor.processAggregateData
  split
  · split
    next empty =>
      have created : Owned { task with nodes := task.nodes ++ [.create cmd []], memory := task.memory } :=
        owned.create cmd (.refl task.memory []) (by simp [Tidy]) running
      rw [empty] at created
      exact ⟨created, running⟩
    next node rest here =>
      have first : task.nodes[0]? = some node := by rw [here, List.getElem?_cons_zero]
      have replaced : Owned { task with nodes := task.nodes.set 0 node.count, memory := task.memory } :=
        owned.replace task.records first (.refl _ _) (owned.tidy node (by simp [Task.live, here])) running
      rw [here] at replaced
      exact ⟨replaced, running⟩
  · obtain ⟨adds, tidy⟩ := extractGroup_adds single task.memory
    have extraction := extractGroup_extraction cmd map task.memory
    generalize extractGroup cmd map task.memory = extracted at adds tidy extraction
    obtain ⟨nums, found, memory⟩ := extracted
    simp only at adds tidy extraction ⊢
    split
    · exact ⟨owned.discard adds, running⟩
    · have search : find memory task.nodes nums =
          some (task.nodes.findIdx? fun node => groupbyCompare memory nums node.groupbyNums = 0) := by
        apply find_of_alive
        · intro node member
          apply Node.undangling
          rw [adds.grows.released]
          exact owned.apart node member
        · apply dangling_of_apart
          intro handle member released
          rw [adds.grows.released] at released
          exact Nat.not_le.mpr (owned.released_lt handle released) (extraction.fresh handle member)
      rw [search]
      cases found_eq : task.nodes.findIdx? fun node => decide (groupbyCompare memory nums node.groupbyNums = 0) with
      | none => exact ⟨owned.create cmd adds tidy running, running⟩
      | some place =>
        obtain ⟨bound, _⟩ := List.findIdx?_eq_some_iff_getElem.mp found_eq
        have here := List.getElem?_eq_getElem bound
        have counted : task.nodes[place].count.Tidy :=
          owned.tidy task.nodes[place] (mem_append_left _ (getElem_mem bound))
        simp only
        rw [modify_of_getElem? Node.count here]
        exact ⟨(owned.discard adds).replace task.records here (.refl _ _) counted running, running⟩

structure Proper (cmd : Cmd) (record : Record) : Prop where
  worded : Worded cmd record.map
  single : Single cmd record.map

theorem Owned.processRecord {record : Record} (owned : Owned task) (running : task.destroyed = false)
    (proper : (cmd.condition.all fun condition => condition record) = true → Proper cmd record) :
    Owned (processRecord cmd task record) ∧ (processRecord cmd task record).destroyed = false := by
  unfold StreamProcessor.processRecord
  split
  · exact ⟨owned, running⟩
  next passes =>
    have passing : (cmd.condition.all fun condition => condition record) = true := by simpa [owned.sound] using passes
    obtain ⟨placed, still⟩ := owned.processAggregateData (proper passing).single running
    generalize StreamProcessor.processAggregateData cmd record.map task = result at placed still
    obtain ⟨found, after⟩ := result
    cases found with
    | none => exact ⟨placed, still⟩
    | some place =>
      simp only at placed still ⊢
      cases here : after.nodes[place]? with
      | none => exact ⟨placed, still⟩
      | some node =>
        obtain ⟨bound, rfl⟩ := List.getElem?_eq_some_iff.mp here
        obtain ⟨nums, group⟩ := tidy_append.mp (placed.tidy _ (mem_append_left _ (getElem_mem bound)))
        obtain ⟨adds, kept⟩ := addMap_adds (proper passing).worded after.nodes[place].nums after.memory nums
        exact ⟨placed.replace (after.records + 1) here (adds.append (.refl _ _)) (tidy_append.mpr ⟨kept, group⟩)
          still, still⟩

theorem Owned.processDataAggr (records : List Record) (owned : Owned task) (running : task.destroyed = false)
    (proper : ∀ record ∈ records, (cmd.condition.all fun condition => condition record) = true → Proper cmd record) :
    Owned (processDataAggr cmd records task) ∧ (processDataAggr cmd records task).destroyed = false := by
  induction records generalizing task with
  | nil => exact ⟨owned, running⟩
  | cons record records ih =>
    obtain ⟨first, still⟩ := owned.processRecord running (proper record mem_cons_self)
    exact ih first still fun other member => proper other (mem_cons_of_mem _ member)

/-! ### Results and prunes -/

theorem Owned.packageResults (owned : Owned task) :
    Owned (packageResults cmd task) ∧ (packageResults cmd task).destroyed = task.destroyed := by
  have alive : (task.nodes.any fun node => task.memory.dangling node.groupbyNums) = false := by
    rw [any_eq_false]
    intro node member
    simp [Node.undangling (owned.apart node member)]
  unfold StreamProcessor.packageResults
  rw [alive]
  exact ⟨⟨owned.sound, owned.once, owned.tidy, owned.plain, owned.gone⟩, rfl⟩

theorem Node.tidy_remove {prev : Node} (tidy : node.Tidy) : (node.remove cmd prev).Tidy := by
  obtain ⟨nums, group⟩ := tidy_append.mp tidy
  exact tidy_append.mpr ⟨tidy_of_retains (removeNums_retains cmd.keys node.nums prev.nums) nums, group⟩

structure Pruned (nodes kept : List Node) (memory later : Memory) : Prop where
  strings : later.strings = memory.strings
  perm : (kept.flatMap Node.handles ++ later.released).Perm (nodes.flatMap Node.handles ++ memory.released)
  tidy : (∀ node ∈ nodes, node.Tidy) → ∀ node ∈ kept, node.Tidy

theorem Pruned.keep (pruned : Pruned nodes kept memory later) (handles : after.handles = node.handles)
    (tidy : node.Tidy → after.Tidy) : Pruned (node :: nodes) (after :: kept) memory later := by
  constructor
  · exact pruned.strings
  · rw [flatMap_cons, flatMap_cons, handles, append_assoc, append_assoc]
    exact pruned.perm.append_left _
  · intro all other member
    rcases mem_cons.mp member with rfl | among
    · exact tidy (all node mem_cons_self)
    · exact pruned.tidy (fun one there => all one (mem_cons_of_mem _ there)) other among

theorem Pruned.drop (pruned : Pruned nodes kept (memory.destroy node.handles) later) :
    Pruned (node :: nodes) kept memory later := by
  constructor
  · exact pruned.strings
  · refine pruned.perm.trans ?_
    simp only [Memory.destroy, flatMap_cons]
    rw [← append_assoc]
    refine perm_append_comm.trans ?_
    rw [append_assoc]
  · intro all
    exact pruned.tidy fun one there => all one (mem_cons_of_mem _ there)

theorem pruneNodes_pruned {slot : Slot} (plain : ∀ node ∈ slot.nodes, node.handles = []) (nodes : List Node)
    (memory : Memory) (nodup : (nodes.flatMap Node.handles ++ memory.released).Nodup) :
    ∃ kept later, pruneNodes cmd slot nodes memory = some (kept, later) ∧ Pruned nodes kept memory later := by
  induction nodes generalizing memory with
  | nil => exact ⟨[], memory, rfl, rfl, .refl _, fun all => all⟩
  | cons node nodes ih =>
    have search : find memory slot.nodes node.groupbyNums =
        some (slot.nodes.findIdx? fun prev => groupbyCompare memory node.groupbyNums prev.groupbyNums = 0) := by
      apply find_of_alive
      · intro prev member
        apply Node.undangling
        simp [plain prev member]
      · apply Node.undangling
        intro handle member released
        exact disjoint_of_nodup_append nodup (mem_flatMap.mpr ⟨node, mem_cons_self, member⟩) released
    rw [flatMap_cons, append_assoc] at nodup
    unfold pruneNodes
    rw [search]
    simp only
    split
    · obtain ⟨kept, later, rest, pruned⟩ := ih memory nodup.of_append_right
      exact ⟨node :: kept, later, by simp [rest], pruned.keep rfl id⟩
    next prev _ =>
      split
      · have moved : (nodes.flatMap Node.handles ++ (memory.destroy node.handles).released).Nodup := by
          rw [Memory.destroy, ← append_assoc]
          exact (perm_append_comm.nodup_iff).mp nodup
        obtain ⟨kept, later, rest, pruned⟩ := ih _ moved
        exact ⟨kept, later, rest, pruned.drop⟩
      · obtain ⟨kept, later, rest, pruned⟩ := ih memory nodup.of_append_right
        exact ⟨node.remove cmd prev :: kept, later, by simp [rest],
          pruned.keep (node.handles_remove prev) Node.tidy_remove⟩

theorem Owned.moved (owned : Owned task) :
    (task.memory.released ++ task.nodes.flatMap Node.handles).Perm (List.range task.memory.strings.length) :=
  perm_append_comm.trans owned.once

theorem Owned.clear (owned : Owned task) (records : BitVec 32) : Owned { task with
      nodes := [], records, memory := task.memory.destroy (task.nodes.flatMap Node.handles) } := by
  constructor
  · exact owned.sound
  · exact owned.moved
  · intro node member
    exact owned.tidy node (mem_append_right _ member)
  · exact owned.plain
  · intro closed
    exact (append_eq_nil_iff.mp (owned.gone closed)).2

theorem Owned.windowPrune (owned : Owned task) (running : task.destroyed = false) :
    Owned (windowPrune cmd task) ∧ (windowPrune cmd task).destroyed = false := by
  have cleared : Owned (if 0 < task.records.toInt then
      { task with nodes := [], records := 0, memory := task.memory.destroy (task.nodes.flatMap Node.handles) }
      else task) := by
    split
    · exact owned.clear 0
    · exact owned
  have still : (if 0 < task.records.toInt then
      { task with nodes := [], records := 0, memory := task.memory.destroy (task.nodes.flatMap Node.handles) }
      else task).destroyed = false := by
    split
    · exact running
    · exact running
  unfold StreamProcessor.windowPrune
  cases cmd.window with
  | default | tumbling => exact ⟨cleared, still⟩
  | hopping =>
    cases slots : task.slots with
    | nil => exact ⟨owned, running⟩
    | cons slot rest =>
      have plain : ∀ node ∈ slot.nodes, node.handles = [] := owned.plain slot (by simp [slots])
      obtain ⟨kept, later, pruned_eq, pruned⟩ := @pruneNodes_pruned cmd slot plain task.nodes task.memory
        (owned.once.nodup_iff.mpr nodup_range)
      have unshared : slot.nodes.flatMap Node.handles = [] := by simpa using plain
      simp only [pruned_eq, unshared]
      refine ⟨⟨owned.sound, ?_, ?_, ?_, ?_⟩, running⟩
      · simp only [Memory.destroy, append_nil]
        rw [pruned.strings]
        exact pruned.perm.trans owned.once
      · intro node member
        rcases mem_append.mp member with window | among
        · exact pruned.tidy (fun one there => owned.tidy one (mem_append_left _ there)) node window
        · apply owned.tidy node (mem_append_right _ _)
          rw [slots, flatMap_cons]
          exact mem_append_right _ among
      · intro other member
        exact owned.plain other (by simp [slots, member])
      · intro closed
        simp [running] at closed

theorem Owned.timer (owned : Owned task) (running : task.destroyed = false) (due : Prop) [Decidable due] :
    Owned (if (if due then StreamProcessor.packageResults cmd task else task).faulted
      then (if due then StreamProcessor.packageResults cmd task else task)
      else StreamProcessor.windowPrune cmd (if due then StreamProcessor.packageResults cmd task else task)) := by
  have packaged : Owned (if due then StreamProcessor.packageResults cmd task else task) ∧
      (if due then StreamProcessor.packageResults cmd task else task).destroyed = false := by
    split
    · exact ⟨owned.packageResults.1, owned.packageResults.2.trans running⟩
    · exact ⟨owned, running⟩
  rw [packaged.1.sound]
  exact (packaged.1.windowPrune packaged.2).1

theorem sinceSlots_plain (slots : List Slot) (plain : ∀ slot ∈ slots, ∀ node ∈ slot.nodes, node.handles = [])
    {group : List AggregateNum} (unheld : group.filterMap AggregateNum.handle = []) (unshared : node.handles = [])
    (tidy : node.Tidy) :
    ∃ part, sinceSlots cmd memory group slots node = some part ∧ part.handles = [] ∧ part.Tidy := by
  induction slots generalizing node with
  | nil => exact ⟨node, rfl, unshared, tidy⟩
  | cons slot slots ih =>
    have others : ∀ other ∈ slots, ∀ node ∈ other.nodes, node.handles = [] :=
      fun other member => plain other (mem_cons_of_mem _ member)
    have search := @find_of_alive memory slot.nodes group
      (fun prev member => Node.undangling (by simp [plain slot mem_cons_self prev member]))
      (dangling_of_apart (by simp [unheld]))
    unfold sinceSlots
    rw [search]
    simp only
    split
    · exact ih others unshared tidy
    next prev _ => exact ih others ((node.handles_remove prev).trans unshared) (Node.tidy_remove tidy)

theorem slotNodes_plain (slots : List Slot) (plain : ∀ slot ∈ slots, ∀ node ∈ slot.nodes, node.handles = [])
    (nodes made : List Node) (unshared : ∀ node ∈ nodes, node.handles = [] ∧ node.Tidy)
    (before : ∀ node ∈ made, node.handles = [] ∧ node.Tidy) :
    ∃ after, slotNodes cmd memory slots nodes made = some after ∧ ∀ node ∈ after, node.handles = [] ∧ node.Tidy := by
  induction nodes generalizing made with
  | nil => exact ⟨made, rfl, before⟩
  | cons node nodes ih =>
    obtain ⟨empty, tidy⟩ := unshared node mem_cons_self
    have unheld : node.groupbyNums.filterMap AggregateNum.handle = [] := (append_eq_nil_iff.mp empty).2
    have others : ∀ other ∈ nodes, other.handles = [] ∧ other.Tidy :=
      fun other member => unshared other (mem_cons_of_mem _ member)
    obtain ⟨part, part_eq, part_plain⟩ := @sinceSlots_plain cmd memory node slots plain node.groupbyNums unheld
      empty tidy
    unfold slotNodes
    rw [part_eq]
    simp only
    split
    · have search := @find_of_alive memory made node.groupbyNums
        (fun prev member => Node.undangling (by simp [(before prev member).1]))
        (dangling_of_apart (by simp [unheld]))
      rw [search]
      apply ih (made ++ [part]) others
      intro other member
      rcases mem_append.mp member with old | new
      · exact before other old
      · rw [mem_singleton.mp new]
        exact part_plain
    · exact ih made others before

theorem Owned.processHoppingSlot (owned : Owned task) (running : task.destroyed = false)
    (unshared : ∀ node ∈ task.nodes, node.stored = []) : Owned (processHoppingSlot cmd task) := by
  have window : ∀ node ∈ task.nodes, node.handles = [] ∧ node.Tidy := by
    intro node member
    have tidy := owned.tidy node (mem_append_left _ member)
    exact ⟨tidy.stored.symm.trans (unshared node member), tidy⟩
  obtain ⟨nodes, nodes_eq, plain⟩ := @slotNodes_plain cmd task.memory task.slots owned.plain task.nodes [] window
    (by simp)
  unfold StreamProcessor.processHoppingSlot
  rw [nodes_eq]
  refine ⟨owned.sound, owned.once, ?_, ?_, ?_⟩
  · intro node member
    simp only [Task.live, flatMap_append, flatMap_singleton, mem_append] at member
    rcases member with old | old | new
    · exact owned.tidy node (mem_append_left _ old)
    · exact owned.tidy node (mem_append_right _ old)
    · exact (plain node new).2
  · intro slot member node among
    rcases mem_append.mp member with old | new
    · exact owned.plain slot old node among
    · rw [mem_singleton.mp new] at among
      exact (plain node among).1
  · intro closed
    simp [running] at closed

theorem Owned.taskDestroy (owned : Owned task) : Owned (taskDestroy task) := by
  have slots : (task.slots.flatMap fun slot => slot.nodes.flatMap Node.handles) = [] := by
    simpa using owned.plain
  unfold StreamProcessor.taskDestroy
  rw [slots, append_nil]
  exact ⟨owned.sound, owned.moved, by simp [Task.live], by simp, fun _ => rfl⟩

/-! ### Runs -/

def Unshared (cmd : Cmd) (task : Task) : Event → Prop
  | .batch records => ∀ record ∈ records, (cmd.condition.all fun condition => condition record) = true →
      Proper cmd record
  | .hopTimer => cmd.window = .hopping → ∀ node ∈ task.nodes, node.stored = []
  | .windowTimer => True
  | .destroy => True

/-- Each event keeps one owner for each string. -/
theorem Owned.step {event : Event} (owned : Owned task) (unshared : Unshared cmd task event) :
    Owned (step cmd event task) := by
  unfold StreamProcessor.step
  split
  · exact owned
  next active =>
    have running : task.destroyed = false := by simpa [owned.sound] using active
    cases event with
    | batch records =>
      obtain ⟨processed, still⟩ := owned.processDataAggr records running unshared
      simp only [batch]
      split
      · exact processed
      · have timer := @Owned.timer cmd _ processed still ((StreamProcessor.processDataAggr cmd records task).records ≠ 0) _
        simpa only [ne_eq, ite_not] using timer
    | hopTimer =>
      simp only
      split
      next hopping => exact owned.processHoppingSlot running (unshared hopping)
      · exact owned
    | windowTimer =>
      simp only
      split
      · exact owned
      · exact owned.timer running _
    | destroy => exact owned.taskDestroy

theorem owned_initial : Owned .initial :=
  ⟨rfl, .refl _, by simp [Task.live, Task.initial], by simp [Task.initial], fun _ => rfl⟩

structure Exclusive (task : Task) : Prop where
  apart : task.live.Pairwise fun one other => ∀ handle ∈ one.stored, handle ∉ other.stored
  alive : ∀ node ∈ task.live, ∀ handle ∈ node.stored, handle ∉ task.memory.released
  once : task.memory.released.Nodup
  all : ∀ handle < task.memory.strings.length,
    handle ∈ task.memory.released ∨ task.destroyed = false ∧ ∃ node ∈ task.live, handle ∈ node.stored
  sound : task.faulted = false

theorem Owned.exclusive (owned : Owned task) : Exclusive task := by
  have slots : (task.slots.flatMap Slot.nodes).flatMap Node.handles = [] := by
    simpa using fun node slot member among => owned.plain slot member node among
  have once : (task.live.flatMap Node.handles ++ task.memory.released).Perm
      (List.range task.memory.strings.length) := by
    rw [Task.live, flatMap_append, slots, append_nil]
    exact owned.once
  have nodup := once.nodup_iff.mpr nodup_range
  have stored : ∀ node ∈ task.live, node.stored = node.handles := fun node member => (owned.tidy node member).stored
  constructor
  · have pairwise := (nodup_flatMap.mp nodup.of_append_left).2
    apply pairwise.imp_of_mem
    intro one other first second disjoint handle member among
    rw [stored one first] at member
    rw [stored other second] at among
    exact disjoint member among
  · intro node member handle held released
    rw [stored node member] at held
    exact disjoint_of_nodup_append nodup (mem_flatMap.mpr ⟨node, member, held⟩) released
  · exact nodup.of_append_right
  · intro handle bound
    rcases mem_append.mp (once.mem_iff.mpr (mem_range.mpr bound)) with held | released
    · obtain ⟨node, member, among⟩ := mem_flatMap.mp held
      refine .inr ⟨?_, node, member, by rwa [stored node member]⟩
      by_contra closed
      have empty := owned.gone (by simpa using closed)
      rw [empty] at member
      cases member
    · exact .inl released
  · exact owned.sound

/-- In every run whose hops copy no strings, each string has one owner and is released once. -/
theorem exclusive_of_unshared {cmd : Cmd} {task : Task}
    (path : Runs.Path (StreamProcessor.step cmd) (Unshared cmd) .initial task) : Exclusive task := by
  have owned : Owned task := path.invariant Owned owned_initial fun _ _ owned unshared => owned.step unshared
  exact owned.exclusive

theorem proper_amountIn (text : Bytes) (amount : BitVec 64) : Proper perGroup (amountIn (.str text) amount) := by
  constructor
  · intro key member function entry among value found
    simp only [perGroup, mem_cons, not_mem_nil, or_false] at member
    simp only [amountIn, mem_cons, not_mem_nil, or_false] at among
    rcases member with rfl | rfl | rfl | rfl
    · rcases among with rfl | rfl
      · exact ⟨text, (Option.some.inj found).symm⟩
      · cases found
    · cases function
    · cases function
    · cases function
  · intro key member _ _ _
    simp only [perGroup, mem_singleton] at member
    rw [member]
    exact Nat.le_refl 1

def quietRun : List Event :=
  [.hopTimer, .batch [amountIn (.str [120]) 1, amountIn (.str [121]) 2, amountIn (.str [120]) 3], .windowTimer, .destroy]

theorem exclusive_of_unshared_quietRun : Exclusive (Runs.after (StreamProcessor.step perGroup) .initial quietRun) ∧
      (Runs.after (StreamProcessor.step perGroup) .initial quietRun).memory.released = [4, 1, 0, 3, 2] := by
  have proper : ∀ record ∈ [amountIn (.str [120]) 1, amountIn (.str [121]) 2, amountIn (.str [120]) 3],
      Proper perGroup record := by
    intro record member
    simp only [mem_cons, not_mem_nil, or_false] at member
    rcases member with rfl | rfl | rfl
    · exact proper_amountIn _ _
    · exact proper_amountIn _ _
    · exact proper_amountIn _ _
  refine ⟨exclusive_of_unshared (Runs.path_after quietRun ⟨?_, ?_, trivial, trivial, trivial⟩), by decide +kernel⟩
  · intro _ node member
    cases member
  · intro record member _
    exact proper record member

/-- The node of a slot has the strings of the node it was copied from; both nodes release
them, and the record that comes after is compared with a string that is gone. -/
theorem hop_shares_strings :
    ¬ Exclusive (Runs.after (StreamProcessor.step perGroup) .initial [.batch [amountIn (.str [120]) 1], .hopTimer]) ∧
      (Runs.after (StreamProcessor.step perGroup) .initial
        [.batch [amountIn (.str [120]) 1], .hopTimer, .windowTimer]).memory.released = [1, 0, 1, 0] ∧
      (Runs.after (StreamProcessor.step perGroup) .initial (hoppingRun (.str [120]) (.str [121]))).faulted = true := by
  refine ⟨?_, by decide +kernel, by decide +kernel⟩
  intro exclusive
  have apart := exclusive.apart
  revert apart
  decide

end

end FluentBit.StreamProcessor
