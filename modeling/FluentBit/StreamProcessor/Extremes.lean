import FluentBit.Foundation.Extremum
import FluentBit.StreamProcessor.Hopping

/-! MIN and MAX on a hopping window. A slot that is taken off cannot be taken off an extreme, so a
group keeps the extreme of all its records since it was last without any. -/

set_option autoImplicit false

namespace FluentBit.StreamProcessor

open List Option
open Multiline (sdsEq)

/-! ### Numbers -/

def beforeFor : AggrFunc → BitVec 64 → BitVec 64 → Prop
  | .max, one, other => other.toInt ≤ one.toInt
  | _, one, other => one.toInt ≤ other.toInt

instance (func : AggrFunc) : Std.Refl (beforeFor func) where
  refl value := by cases func <;> exact Int.le_refl _

instance (func : AggrFunc) : IsTrans (BitVec 64) (beforeFor func) where
  trans one two three := by
    cases func with
    | max => exact fun first second => Int.le_trans second first
    | _ => exact Int.le_trans

instance (func : AggrFunc) : Std.Antisymm (beforeFor func) where
  antisymm one other := by
    cases func with
    | max => exact fun first second => BitVec.eq_of_toInt_eq (Int.le_antisymm second first)
    | _ => exact fun first second => BitVec.eq_of_toInt_eq (Int.le_antisymm first second)

def IsExtreme (func : AggrFunc) (values : List (BitVec 64)) (value : BitVec 64) : Prop :=
  (values = [] ∧ value = 0) ∨ Extremum.Of (beforeFor func) values value

def integerFor (cmd : Cmd) (map : Map) (entry : Bytes) (key : CmdKey) : Option (BitVec 64) :=
  match (valueFor map entry key).bind (objectToNumber cmd) with
  | some (.int ival) => some ival
  | _ => none

def integersFor (cmd : Cmd) (key : CmdKey) (record : Record) : List (BitVec 64) :=
  record.map.flatMap fun entry => (integerFor cmd record.map entry.1 key).toList

def CmdKey.extreme (key : CmdKey) (func : AggrFunc) : Prop :=
  key.aggrFunc = some func ∧ (func = .min ∨ func = .max)

def Seen (func : AggrFunc) (values : List (BitVec 64)) (num : AggregateNum) : Prop :=
  num.type = .i64 ∧ IsExtreme func values num.i64 ∧ (num.ops = 0 ↔ values = [])

def Extremes (values : CmdKey → List (BitVec 64)) (key : CmdKey) (num : AggregateNum) : Prop :=
  ∀ func, key.extreme func → Seen func (values key) num

variable {func : AggrFunc}

section

variable {cmd : Cmd} {map : Map} {values : CmdKey → List (BitVec 64)} {memory : Memory}

theorem IsExtreme.unique {values : List (BitVec 64)} {one other : BitVec 64} (first : IsExtreme func values one)
    (second : IsExtreme func values other) : one = other := by
  rcases first with ⟨empty, zero⟩ | first
  · subst empty
    rcases second with ⟨-, same⟩ | ⟨member, -⟩
    · exact zero.trans same.symm
    · cases member
  · rcases second with ⟨empty, -⟩ | second
    · subst empty
      cases first.1
    · exact first.unique second

theorem IsExtreme.of_ne_nil {values : List (BitVec 64)} {value : BitVec 64} (extreme : IsExtreme func values value)
    (filled : values ≠ []) : Extremum.Of (beforeFor func) values value :=
  extreme.resolve_left fun empty => filled empty.1

theorem Seen.add {values : List (BitVec 64)} {num : AggregateNum} (seen : Seen func values num)
    (extreme : func = .min ∨ func = .max) (ival : BitVec 64) :
    Seen func (values ++ [ival]) (num.add func (.int ival)) := by
  obtain ⟨type, held, counted⟩ := seen
  -- both functions compare the integer with the one that is held
  have compared : ∃ ahead : Prop, ∃ _ : Decidable ahead, num.add func (.int ival) =
        (if num.ops = 0 ∨ ahead then { num with i64 := ival, ops := num.ops + 1 } else num) ∧
      (ahead → beforeFor func ival num.i64) ∧ (¬ ahead → beforeFor func num.i64 ival) := by
    rcases extreme with rfl | rfl
    · refine ⟨ival.toInt < num.i64.toInt, inferInstance, ?_, Int.le_of_lt, Int.not_lt.mp⟩
      simp [AggregateNum.add, AggregateNum.addMin, type, AggregateNum.integerOf]
    · refine ⟨num.i64.toInt < ival.toInt, inferInstance, ?_, Int.le_of_lt, Int.not_lt.mp⟩
      simp [AggregateNum.add, AggregateNum.addMax, type, AggregateNum.integerOf]
  obtain ⟨ahead, decidable, added, front, back⟩ := compared
  rw [added]
  by_cases first : num.ops = 0
  · rw [if_pos (.inl first), counted.mp first, nil_append]
    exact ⟨type, .inr Extremum.of_singleton, by simp⟩
  · have old := held.of_ne_nil (mt counted.mpr first)
    by_cases preferred : ahead
    · rw [if_pos (.inr preferred)]
      exact ⟨type, .inr (old.replaced (front preferred)), by simp⟩
    · rw [if_neg (not_or.mpr ⟨first, preferred⟩)]
      exact ⟨type, .inr (old.held (back preferred)), by simp [first]⟩

theorem Extremes.addValue {key : CmdKey} {num : AggregateNum} {entry : Bytes} {value : Value}
    (extremes : Extremes values key num) (there : valueFor map entry key = some value)
    (integral : key.aggrFunc ≠ none → ∀ dval, objectToNumber cmd value ≠ some (.float dval)) :
    Extremes (fun key => values key ++ (integerFor cmd map entry key).toList) key
      (addValue cmd key value num memory).1 := by
  intro func extreme
  have seen := extremes func extreme
  have integers := integral (by simp [extreme.1])
  unfold StreamProcessor.addValue
  rw [extreme.1]
  simp only
  cases number : objectToNumber cmd value with
  | none => simpa [integerFor, there, number] using seen
  | some found =>
    cases found with
    | float dval => exact absurd number (integers dval)
    | int ival => simpa [integerFor, there, number, AggregateNum.promote] using seen.add extreme.2 ival

theorem addEntry_extremes (entry : Bytes) (keys : List CmdKey) (nums : List AggregateNum) (memory : Memory)
    (integral : ∀ key ∈ keys, key.aggrFunc ≠ none → ∀ dval,
      (valueFor map entry key).bind (objectToNumber cmd) ≠ some (.float dval))
    (extremes : List.Forall₂ (Extremes values) keys nums) :
    List.Forall₂ (Extremes fun key => values key ++ (integerFor cmd map entry key).toList) keys
      (addEntry cmd map entry keys nums memory).1 := by
  induction keys generalizing nums memory with
  | nil =>
    cases extremes
    exact .nil
  | cons key keys ih =>
    cases extremes with
    | @cons _ num _ nums here later =>
      have rest := fun memory => ih nums memory (fun key member => integral key (mem_cons_of_mem _ member)) later
      cases there : valueFor map entry key with
      | none =>
        simp only [addEntry, there]
        refine .cons ?_ (rest memory)
        intro func extreme
        simpa [integerFor, there] using here func extreme
      | some value =>
        simp only [addEntry, there]
        refine .cons (here.addValue there ?_) (rest _)
        intro function dval
        simpa [there] using integral key (by simp) function dval

theorem addMap_extremes (nums : List AggregateNum) (record : Record)
    (integral : Integral cmd record.map) (extremes : List.Forall₂ (Extremes values) cmd.keys nums) :
    List.Forall₂ (Extremes fun key => values key ++ integersFor cmd key record) cmd.keys
      (addMap cmd record.map nums memory).1 := by
  have loop : ∀ (entries : Map) (values : CmdKey → List (BitVec 64)) (nums : List AggregateNum) (memory : Memory),
      (∀ entry ∈ entries, entry ∈ record.map) → List.Forall₂ (Extremes values) cmd.keys nums →
      List.Forall₂
        (Extremes fun key => values key ++ entries.flatMap fun entry => (integerFor cmd record.map entry.1 key).toList)
        cmd.keys
        (entries.foldl (fun state entry => addEntry cmd record.map entry.1 cmd.keys state.1 state.2)
          (nums, memory)).1 := by
    intro entries
    induction entries with
    | nil =>
      intro values nums memory _ extremes
      simpa using extremes
    | cons entry entries ih =>
      intro values nums memory among extremes
      have one := addEntry_extremes entry.1 cmd.keys nums memory
        (fun key member function => integral key member function entry (among entry (by simp))) extremes
      have rest := ih _ _ (addEntry cmd record.map entry.1 cmd.keys nums memory).2
        (fun other member => among other (mem_cons_of_mem _ member)) one
      simpa using rest
  exact loop record.map values nums memory (fun _ => id) extremes

theorem removeNums_extremes (keys : List CmdKey) (nums prevs : List AggregateNum)
    (extremes : List.Forall₂ (Extremes values) keys nums) :
    List.Forall₂ (Extremes values) keys (removeNums keys nums prevs) := by
  induction extremes generalizing prevs with
  | nil => exact .nil
  | @cons key num keys nums here later ih =>
    cases prevs with
    | nil => exact .cons here later
    | cons prev prevs =>
      refine .cons ?_ (ih prevs)
      intro func extreme
      have kept : num.remove func prev = num := by
        rcases extreme.2 with rfl | rfl
        · rfl
        · rfl
      simp only [extreme.1, kept]
      exact here func extreme

end

def Spans (cmd : Cmd) (records : List Record) (node : Node) : Prop :=
  List.Forall₂ (Extremes fun key => records.flatMap (integersFor cmd key)) cmd.keys node.nums

section

variable {cmd : Cmd} {kinds : List Kind} {records : List Record} {node : Node} {memory : Memory}

theorem Spans.add (spans : Spans cmd records node) (record : Record) (integral : Integral cmd record.map)
    (memory : Memory) :
    Spans cmd (records ++ [record]) { node.count with nums := (addMap cmd record.map node.nums memory).1 } := by
  apply (addMap_extremes node.nums record integral spans).imp
  intro key num extremes
  simpa using extremes

theorem spans_create (groupbyNums : List AggregateNum) : Spans cmd [] (Node.create cmd groupbyNums) := by
  unfold Spans Node.create
  rw [forall₂_map_right_iff]
  apply forall₂_same.mpr
  intro key _ func _
  exact ⟨rfl, .inl ⟨rfl, rfl⟩, by simp [AggregateNum.zero]⟩

theorem Spans.remove (spans : Spans cmd records node) (prev : Node) : Spans cmd records (node.remove cmd prev) :=
  removeNums_extremes cmd.keys node.nums prev.nums spans

variable {later : Memory}

theorem AggregateNum.value_of_strings (num : AggregateNum) (strings : later.strings = memory.strings) :
    num.value later = num.value memory := by
  have text : later.text = memory.text := by
    funext handle
    rw [Memory.text, Memory.text, strings]
  rw [AggregateNum.value, AggregateNum.value, text]

theorem pruneNodes_from {slot : Slot} {nodes kept : List Node}
    (pruned : pruneNodes cmd slot nodes memory = some (kept, later)) :
    later.strings = memory.strings ∧ ∀ one ∈ kept, ∃ node ∈ nodes, one.groupbyNums = node.groupbyNums ∧
      ∀ records, Spans cmd records node → Spans cmd records one := by
  induction nodes generalizing memory kept with
  | nil =>
    cases pruned
    exact ⟨rfl, by simp⟩
  | cons node nodes ih =>
    have rest : ∀ {memory kept}, pruneNodes cmd slot nodes memory = some (kept, later) →
        later.strings = memory.strings ∧ ∀ one ∈ kept, ∃ earlier ∈ node :: nodes,
          one.groupbyNums = earlier.groupbyNums ∧ ∀ records, Spans cmd records earlier → Spans cmd records one := by
      intro memory kept pruned
      obtain ⟨strings, each⟩ := ih pruned
      refine ⟨strings, ?_⟩
      intro one member
      obtain ⟨earlier, among, same⟩ := each one member
      exact ⟨earlier, mem_cons_of_mem _ among, same⟩
    unfold pruneNodes at pruned
    split at pruned
    · cases pruned
    next place _ =>
      split at pruned
      · obtain ⟨⟨others, _⟩, left, same⟩ := map_eq_some_iff.mp pruned
        cases same
        obtain ⟨strings, each⟩ := rest left
        refine ⟨strings, ?_⟩
        intro one member
        rcases mem_cons.mp member with rfl | other
        · exact ⟨one, mem_cons_self, rfl, fun _ => id⟩
        · exact each one other
      next prev _ =>
        split at pruned
        · exact @rest (memory.destroy node.handles) kept pruned
        · obtain ⟨⟨others, _⟩, left, same⟩ := map_eq_some_iff.mp pruned
          cases same
          obtain ⟨strings, each⟩ := rest left
          refine ⟨strings, ?_⟩
          intro one member
          rcases mem_cons.mp member with rfl | other
          · exact ⟨node, mem_cons_self, rfl, fun _ spans => spans.remove prev⟩
          · exact each one other

end

/-! ### The window -/

/-- The records of the window, and for each group those that were taken off since the window last
had no record of it. -/
structure Lives where
  ledger : Ledger Record
  gone : List GroupValue → List Record

def Lives.empty : Lives := { ledger := .empty, gone := fun _ => [] }

open Classical in
noncomputable def follow (cmd : Cmd) : Event → Lives → Lives
  | .windowTimer, lives =>
    { ledger := lives.ledger.prune
      gone := fun group =>
        if ofGroup cmd group lives.ledger.prune.remaining = [] then []
        else lives.gone group ++ ofGroup cmd group (lives.ledger.closed.head?.getD []) }
  | event, lives => { lives with ledger := bookkeep cmd event lives.ledger }

structure Living (cmd : Cmd) (kinds : List Kind) (lives : Lives) (task : Task) : Prop where
  consistent : Consistent cmd kinds lives.ledger task
  spans : ∀ node ∈ task.nodes, Spans cmd (lives.gone (node.group task.memory) ++
    ofGroup cmd (node.group task.memory) lives.ledger.remaining) node
  gone : ∀ group, ofGroup cmd group lives.ledger.remaining = [] → lives.gone group = []

section

variable {cmd : Cmd} {kinds : List Kind} {lives : Lives} {task : Task} {record : Record}

theorem living_initial : Living cmd kinds .empty .initial :=
  ⟨consistent_initial, by simp [Task.initial], fun _ _ => rfl⟩

variable {group : List GroupValue} {place : Nat} {node : Node} {records : List Record}

theorem Living.placed (living : Living cmd kinds lives task) (integral : Integral cmd record.map)
    (grouped : groupOf cmd record.map = some group) {after : Task}
    (placement : Placement cmd kinds task group (some place, after)) (here : after.nodes[place]? = some node) :
    let added := addMap cmd record.map node.nums after.memory
    ∀ one ∈ after.nodes.set place { node with nums := added.1 },
      Spans cmd (lives.gone (one.group added.2) ++ ofGroup cmd (one.group added.2) (lives.ledger.remaining ++ [record])) one := by
  have window := living.consistent.window
  -- a node of another group keeps its records
  have other : ∀ one ∈ task.nodes, ∀ later, Outlives task.memory later → one.group task.memory ≠ group →
      Spans cmd (lives.gone (one.group later) ++ ofGroup cmd (one.group later) (lives.ledger.remaining ++ [record])) one := by
    intro one member later outlives apart
    rw [(window.settled one member).group_outlives outlives, ofGroup_snoc_of_ne grouped apart]
    exact living.spans one member
  cases placement with
  | @found _ old later there same outlives known =>
    have member : old ∈ task.nodes := mem_of_getElem? there
    have counted : node = old.count := by
      simpa [there] using here.symm
    subst counted
    obtain ⟨-, grows⟩ := (window.tallied old member).add record integral later
    have lasting := outlives.trans (.of_grows grows)
    intro added one inside
    simp only [set_modify] at inside
    obtain ⟨before, rest, split, replaced⟩ := split_at there
    rw [replaced] at inside
    rw [split] at window
    rcases window.mem_set inside with rfl | ⟨among, apart⟩
    · have unchanged : Node.group added.2 { old.count with nums := added.1 } = group :=
        ((living.consistent.window.settled old member).group_outlives lasting).trans same
      rw [unchanged, ofGroup_snoc_self grouped, ← append_assoc, ← same]
      exact (living.spans old member).add record integral later
    · apply other one _ added.2 lasting (same ▸ apart)
      rw [split]
      simpa [or_left_comm] using Or.inr (mem_append.mp among)
  | @created nums later absent settled values outlives known =>
    have created : node = Node.create cmd nums := by
      simpa using here.symm
    subst created
    obtain ⟨-, grows⟩ := tallied_create nums record integral later
    have lasting := outlives.trans (.of_grows grows)
    intro added one inside
    simp only [set_append_last] at inside
    rcases mem_append.mp inside with earlier | last
    · exact other one earlier added.2 lasting (absent one earlier)
    · obtain rfl := mem_singleton.mp last
      have nothing := window.ofGroup_eq_nil absent
      have unchanged : Node.group added.2 { Node.create cmd nums with nums := added.1 } = group :=
        (settled.values_grows grows.strings).trans values
      rw [unchanged, ofGroup_snoc_self grouped, nothing, living.gone group nothing]
      exact (spans_create nums).add record integral later

theorem ofGroup_add_eq_nil (empty : ofGroup cmd group (lives.ledger.add records).remaining = []) :
    ofGroup cmd group lives.ledger.remaining = [] := by
  rw [Ledger.remaining_add, ofGroup_append] at empty
  exact (append_eq_nil_iff.mp empty).1

theorem Living.processRecord (living : Living cmd kinds lives task) (suits : Suits cmd kinds record)
    (room : lives.ledger.remaining.length + 1 < 2 ^ 31) :
    Living cmd kinds { lives with ledger := lives.ledger.add (if accepted cmd record then [record] else []) }
      (processRecord cmd task record) := by
  refine ⟨living.consistent.processRecord suits room, ?_, fun group empty => living.gone group (ofGroup_add_eq_nil empty)⟩
  rcases living.consistent.recorded suits with
    ⟨skipped, later, left, outlives, -⟩ | ⟨group, place, after, taken, grouped, placement, left⟩
  · rw [left, skipped, if_neg Bool.false_ne_true, Ledger.add_nil]
    intro one member
    have unchanged := (living.consistent.window.settled one member).group_outlives outlives
    simp only [unchanged]
    exact living.spans one member
  · obtain ⟨node, here, -⟩ := living.consistent.placed suits.integral room grouped placement
    rw [left node here, if_pos taken, Ledger.remaining_add]
    exact living.placed suits.integral grouped placement here

theorem Living.processDataAggr (records : List Record) (living : Living cmd kinds lives task)
    (suits : ∀ record ∈ records, Suits cmd kinds record)
    (room : lives.ledger.remaining.length + records.length < 2 ^ 31) :
    Living cmd kinds { lives with ledger := lives.ledger.add (records.filter (accepted cmd)) }
      (processDataAggr cmd records task) :=
  @processDataAggr_keeps _ _ _ _ (fun ledger task => Living cmd kinds { lives with ledger } task)
    (fun living suits room => living.processRecord suits room) records living suits room

theorem Living.windowPrune (living : Living cmd kinds lives task) (hopping : cmd.window = .hopping)
    (prunable : Prunable task) : Living cmd kinds (follow cmd .windowTimer lives) (windowPrune cmd task) := by
  have consistent := living.consistent.windowPrune hopping prunable
  refine ⟨consistent, ?_, fun group empty => if_pos empty⟩
  -- the node of a group is one that was there, with what it has seen
  have kept : ∀ one ∈ (StreamProcessor.windowPrune cmd task).nodes, ∃ node ∈ task.nodes,
      one.group (StreamProcessor.windowPrune cmd task).memory = node.group task.memory ∧
        ∀ records, Spans cmd records node → Spans cmd records one := by
    have running := consistent.running.1
    unfold StreamProcessor.windowPrune at running ⊢
    rw [hopping] at running ⊢
    cases slots : task.slots with
    | nil => exact fun one member => ⟨one, member, rfl, fun _ => id⟩
    | cons slot rest =>
      simp only [slots] at running ⊢
      cases pruned : pruneNodes cmd slot task.nodes task.memory with
      | none => simp [pruned] at running
      | some left =>
        obtain ⟨strings, each⟩ := pruneNodes_from pruned
        intro one member
        obtain ⟨node, among, same, spans⟩ := each one member
        refine ⟨node, among, ?_, spans⟩
        simp only [Node.group, same]
        exact map_congr_left fun num _ => num.value_of_strings strings
  intro one member
  obtain ⟨node, among, same, spans⟩ := kept one member
  have filled := consistent.window.ofGroup_ne_nil member
  rw [same] at filled ⊢
  apply spans
  simp only [follow, if_neg filled]
  cases closed : lives.ledger.closed with
  | nil =>
    have unpruned : lives.ledger.prune = lives.ledger := by
      unfold Ledger.prune
      rw [closed, tail_nil, ← closed]
    rw [unpruned]
    simpa [ofGroup] using living.spans node among
  | cons first rest =>
    have spans := living.spans node among
    rw [Ledger.remaining_prune closed, ofGroup_append, ← append_assoc] at spans
    exact spans

theorem Living.step (living : Living cmd kinds lives task) (hopping : cmd.window = .hopping) (event : Event)
    (orderly : Orderly cmd kinds task event) : Living cmd kinds (follow cmd event lives) (step cmd event task) := by
  have consistent := living.consistent
  cases event with
  | batch records =>
    obtain ⟨suits, room⟩ := orderly
    have bounded := consistent.bounded
    rw [consistent.records, BitVec.toNat_ofNat, Nat.mod_eq_of_lt (by omega)] at room
    rw [consistent.step_batch hopping]
    exact living.processDataAggr records suits room
  | hopTimer =>
    have hopped := consistent.step hopping .hopTimer trivial
    rw [consistent.step_hopTimer hopping] at hopped ⊢
    have nodes : (StreamProcessor.processHoppingSlot cmd task).nodes = task.nodes ∧
        (StreamProcessor.processHoppingSlot cmd task).memory = task.memory := by
      unfold StreamProcessor.processHoppingSlot
      split
      · exact ⟨rfl, rfl⟩
      · exact ⟨rfl, rfl⟩
    have remaining := Ledger.remaining_close lives.ledger
    refine ⟨hopped, ?_, ?_⟩
    · rw [nodes.1, nodes.2]
      simp only [follow, bookkeep, remaining]
      exact living.spans
    · simp only [follow, bookkeep, remaining]
      exact living.gone
  | windowTimer =>
    rw [consistent.timer_eq hopping]
    have reporting : ∀ reports, Living cmd kinds lives { task with reports } :=
      fun reports => ⟨consistent.reporting reports, living.spans, living.gone⟩
    exact (reporting _).windowPrune hopping orderly
  | destroy => cases orderly

theorem living_after (hopping : cmd.window = .hopping) (events : List Event) (living : Living cmd kinds lives task)
    (admitted : Runs.Admits (StreamProcessor.step cmd) (Orderly cmd kinds) task events) :
    Living cmd kinds (Runs.after (follow cmd) lives events) (Runs.after (StreamProcessor.step cmd) task events) := by
  induction events generalizing lives task with
  | nil => exact living
  | cons event events ih =>
    obtain ⟨orderly, later⟩ := admitted
    exact ih (living.step hopping event orderly) later

def RightExtremes (cmd : Cmd) (records : List Record) (rows : List Row) : Prop :=
  ∀ row ∈ rows, ∀ (place : Nat) key func, cmd.keys[place]? = some key → key.extreme func →
    ∃ value, row.values[place]? = some (some (.int value)) ∧
      IsExtreme func ((ofGroup cmd row.group records).flatMap (integersFor cmd key)) value

/-- No integer of a group that was taken off is in front of those that are left. -/
def NothingStale (cmd : Cmd) (lives : Lives) : Prop :=
  ∀ group, (∃ record ∈ lives.ledger.remaining, groupOf cmd record.map = some group) →
    ∀ key ∈ cmd.keys, ∀ func, key.extreme func →
      let gone := (lives.gone group).flatMap (integersFor cmd key)
      let kept := (ofGroup cmd group lives.ledger.remaining).flatMap (integersFor cmd key)
      (kept = [] → IsExtreme func gone 0) ∧ (kept ≠ [] → ∀ old ∈ gone, ∃ new ∈ kept, beforeFor func new old)

theorem IsExtreme.kept_iff {gone kept : List (BitVec 64)} {value : BitVec 64}
    (extreme : IsExtreme func (gone ++ kept) value) : IsExtreme func kept value ↔
      (kept = [] → IsExtreme func gone 0) ∧ (kept ≠ [] → ∀ old ∈ gone, ∃ new ∈ kept, beforeFor func new old) := by
  by_cases empty : kept = []
  · subst empty
    rw [append_nil] at extreme
    constructor
    · intro nothing
      have zero : value = 0 := nothing.unique (.inl ⟨rfl, rfl⟩)
      exact ⟨fun _ => zero ▸ extreme, fun filled => absurd rfl filled⟩
    · rintro ⟨start, -⟩
      exact .inl ⟨rfl, extreme.unique (start rfl)⟩
  · have whole := extreme.of_ne_nil (by simp [empty])
    constructor
    · intro left
      exact ⟨fun nothing => absurd nothing empty, fun _ => (whole.kept_iff.mp (left.of_ne_nil empty)).2⟩
    · rintro ⟨-, matched⟩
      exact .inr (whole.kept_iff.mpr ⟨empty, matched empty⟩)

theorem Spans.calc {memory : Memory} (spans : Spans cmd records node) {key : CmdKey}
    (here : cmd.keys[place]? = some key) (extreme : key.extreme func) :
    ∃ value, (row cmd memory node).values[place]? = some (some (.int value)) ∧
      IsExtreme func (records.flatMap (integersFor cmd key)) value := by
  obtain ⟨num, there, seen⟩ := getElem?_of_forall₂ spans here
  obtain ⟨type, held, -⟩ := seen func extreme
  refine ⟨num.i64, ?_, held⟩
  have packed : aggregateCalc func node num = some (.int num.i64) := by
    rcases extreme.2 with rfl | rfl
    · simp [aggregateCalc, type]
    · simp [aggregateCalc, type]
  simp [row, List.getElem?_zipWith, here, there, packKey, extreme.1, packed]

theorem Living.right_iff (living : Living cmd kinds lives task) :
    RightExtremes cmd lives.ledger.remaining (task.nodes.map (row cmd task.memory)) ↔ NothingStale cmd lives := by
  have window := living.consistent.window
  constructor
  · intro right group present key member func extreme gone kept
    obtain ⟨place, here⟩ := List.getElem?_of_mem member
    have reported := (window.mem_rows group).mpr present
    rw [row_groups] at reported
    obtain ⟨node, among, rfl⟩ := mem_map.mp reported
    obtain ⟨value, packed, held⟩ := (living.spans node among).calc here extreme
    obtain ⟨other, same, least⟩ := right _ (mem_map_of_mem among) place key func here extreme
    rw [packed] at same
    cases same
    rw [flatMap_append] at held
    exact held.kept_iff.mp least
  · intro fresh one member place key func here extreme
    obtain ⟨node, among, rfl⟩ := mem_map.mp member
    obtain ⟨value, packed, held⟩ := (living.spans node among).calc here extreme
    rw [flatMap_append] at held
    exact ⟨value, packed, held.kept_iff.mpr
      (fresh _ (window.present node among) key (mem_of_getElem? here) func extreme)⟩

/-- Whenever the window timer fires, its MIN and MAX are those of the records of the window exactly
when no integer that was taken off is in front of them. -/
theorem extremes_right_iff (hopping : cmd.window = .hopping) (events : List Event)
    (admitted : Runs.Admits (StreamProcessor.step cmd) (Orderly cmd kinds) .initial events) :
    let task := Runs.after (StreamProcessor.step cmd) .initial events
    let lives := Runs.after (follow cmd) .empty events
    (lives.ledger.remaining = [] ∧ (StreamProcessor.step cmd .windowTimer task).reports = task.reports) ∨
      ∃ rows, (StreamProcessor.step cmd .windowTimer task).reports = task.reports ++ [rows] ∧
        (∀ group, group ∈ rows.map Row.group ↔ ∃ record ∈ lives.ledger.remaining, groupOf cmd record.map = some group) ∧
        (RightExtremes cmd lives.ledger.remaining rows ↔ NothingStale cmd lives) := by
  intro task lives
  have living : Living cmd kinds lives task := living_after hopping events living_initial admitted
  have timer := congrArg Task.reports (living.consistent.timer_eq hopping)
  rw [windowPrune_reports] at timer
  by_cases empty : lives.ledger.remaining = []
  · refine .inl ⟨empty, ?_⟩
    rw [if_pos empty, append_nil] at timer
    exact timer
  · refine .inr ⟨_, ?_, living.consistent.window.mem_rows, living.right_iff⟩
    rw [if_neg empty] at timer
    exact timer

end

/-- The query `SELECT g, MIN(v) ... GROUP BY g` on a hopping window. -/
def minPerGroup : Cmd :=
  { keys := [⟨some [103], [], none, some 0⟩, ⟨some [118], [], some .min, none⟩]
    gbKeys := [⟨[103], []⟩], condition := none, stringToNumber := fun _ => none, window := .hopping }

def minRun (first second : BitVec 64) : List Event :=
  [.batch [amountIn (.int 5) first], .hopTimer, .batch [amountIn (.int 5) second], .windowTimer]

theorem suits_minPerGroup (amount : BitVec 64) : Suits minPerGroup [.int] (amountIn (.int 5) amount) := by
  constructor
  · intro key member function entry among dval
    simp only [minPerGroup, mem_cons, not_mem_nil, or_false] at member
    simp only [amountIn, mem_cons, not_mem_nil, or_false] at among
    rcases member with rfl | rfl
    · exact absurd rfl function
    · rcases among with rfl | rfl
      · intro found
        cases found
      · intro found
        cases found
  · intro values grouped
    obtain rfl : [GroupValue.int 5] = values := Option.some.inj grouped
    exact .cons trivial .nil

/-- The record of 3 is taken off before the one of 2 is reported. -/
theorem extremes_right_iff_minRun :
    (Runs.after (follow minPerGroup) .empty (minRun 3 2)).ledger.remaining = [amountIn (.int 5) 2] ∧
      ∃ rows, (StreamProcessor.step minPerGroup .windowTimer
            (Runs.after (StreamProcessor.step minPerGroup) .initial (minRun 3 2))).reports =
          (Runs.after (StreamProcessor.step minPerGroup) .initial (minRun 3 2)).reports ++ [rows] ∧
        (RightExtremes minPerGroup [amountIn (.int 5) 2] rows ↔
          NothingStale minPerGroup (Runs.after (follow minPerGroup) .empty (minRun 3 2))) := by
  have orderly : Runs.Admits (StreamProcessor.step minPerGroup) (Orderly minPerGroup [.int]) .initial (minRun 3 2) := by
    refine ⟨⟨?_, by decide +kernel⟩, trivial, ⟨?_, by decide +kernel⟩,
      orderly_of_plain (by decide +kernel) (by decide +kernel), trivial⟩
    · intro record member
      obtain rfl := mem_singleton.mp member
      exact suits_minPerGroup 3
    · intro record member
      obtain rfl := mem_singleton.mp member
      exact suits_minPerGroup 2
  have remaining : (Runs.after (follow minPerGroup) .empty (minRun 3 2)).ledger.remaining = [amountIn (.int 5) 2] := rfl
  refine ⟨remaining, ?_⟩
  rcases extremes_right_iff rfl (minRun 3 2) orderly with ⟨empty, -⟩ | ⟨rows, reported, -, right⟩
  · rw [remaining] at empty
    cases empty
  · rw [remaining] at right
    exact ⟨rows, reported, right⟩

/-- A record of 1 that was taken off is still the minimum of what is left. -/
theorem stale_minimum : (Runs.after (bookkeep minPerGroup) .empty (minRun 1 2)).remaining = [amountIn (.int 5) 2] ∧
      ∃ rows, (StreamProcessor.step minPerGroup .windowTimer
            (Runs.after (StreamProcessor.step minPerGroup) .initial (minRun 1 2))).reports =
          (Runs.after (StreamProcessor.step minPerGroup) .initial (minRun 1 2)).reports ++ [rows] ∧
        ¬ RightExtremes minPerGroup [amountIn (.int 5) 2] rows := by
  refine ⟨rfl, [{ group := [.int 5], values := [some (.int 5), some (.int 1)] }], rfl, ?_⟩
  intro right
  obtain ⟨value, packed, least⟩ := right _ (mem_singleton_self _) 1 _ .min rfl ⟨rfl, .inl rfl⟩
  cases packed
  have grouped : groupOf minPerGroup (amountIn (.int 5) 2).map = some [.int 5] := rfl
  have inside : ofGroup minPerGroup [.int 5] [amountIn (.int 5) 2] = [amountIn (.int 5) 2] :=
    @ofGroup_snoc_self minPerGroup [] [.int 5] _ grouped
  have integers : integersFor minPerGroup ⟨some [118], [], some .min, none⟩ (amountIn (.int 5) 2) = [2] := rfl
  simp only [inside, flatMap_cons, integers, flatMap_nil, append_nil] at least
  have member := (least.of_ne_nil (cons_ne_nil _ _)).1
  exact absurd (mem_singleton.mp member) (by decide)

end FluentBit.StreamProcessor
