import FluentBit.Foundation.Runs
import FluentBit.StreamProcessor.Tally

/-! A hopping window reports the aggregates of the records since the slot that was taken off
last, as long as no slot with strings is taken off. -/

set_option autoImplicit false

namespace FluentBit.StreamProcessor

open List Nat
open Multiline (sdsEq)

variable {later : Memory} {nums : List AggregateNum}

section

variable {cmd : Cmd} {kinds : List Kind} {memory : Memory} {task : Task} {records : List Record} {nodes : List Node}
  {group : List GroupValue} {map : Map}

def Known (memory : Memory) : Prop := ∀ handle ∈ memory.released, handle < memory.strings.length

theorem Known.grows (known : Known memory) (grows : Grows memory later) : Known later := by
  intro handle member
  rw [grows.released] at member
  exact Nat.lt_of_lt_of_le (known handle member) grows.length

variable {found : Nat}

theorem Extraction.known_destroy (known : Known memory) (extraction : Extraction cmd map memory nums found later) :
    Known (later.destroy (nums.filterMap AggregateNum.handle)) := by
  intro handle member
  rcases mem_append.mp member with earlier | new
  · exact known.grows extraction.grows handle earlier
  · obtain ⟨num, among, held⟩ := mem_filterMap.mp new
    exact extraction.kept num among handle held

theorem Extraction.outlives_destroy (extraction : Extraction cmd map memory nums found later) :
    Outlives memory (later.destroy (nums.filterMap AggregateNum.handle)) :=
  (Outlives.of_grows extraction.grows).destroy _ extraction.fresh

theorem Extraction.settled (known : Known memory) (extraction : Extraction cmd map memory nums found later)
    (fits : Fits kinds (cmd.gbKeys.map (groupValueOf cmd map))) : Settled kinds later nums := by
  refine ⟨by rwa [extraction.values], extraction.kept, ?_⟩
  intro handle member released
  rw [extraction.grows.released] at released
  exact absurd (known handle released) (Nat.not_lt.mpr (extraction.fresh handle member))

inductive Placement (cmd : Cmd) (kinds : List Kind) (task : Task) (group : List GroupValue) :
    Option Nat × Task → Prop where
  | found {place : Nat} {node : Node} {later : Memory} : task.nodes[place]? = some node →
      node.group task.memory = group → Outlives task.memory later → Known later →
      Placement cmd kinds task group
        (some place, { task with nodes := task.nodes.modify place Node.count, memory := later })
  | created {nums : List AggregateNum} {later : Memory} : (∀ node ∈ task.nodes, node.group task.memory ≠ group) →
      Settled kinds later nums → nums.map (AggregateNum.value later) = group → Outlives task.memory later →
      Known later →
      Placement cmd kinds task group
        (some task.nodes.length, { task with nodes := task.nodes ++ [.create cmd nums], memory := later })

theorem processAggregateData_placement (known : Known task.memory)
    (settled : ∀ node ∈ task.nodes, Settled kinds task.memory node.groupbyNums)
    (grouped : groupOf cmd map = some group) (fits : Fits kinds group) :
    Placement cmd kinds task group (processAggregateData cmd map task) := by
  unfold groupOf at grouped
  split at grouped
  · cases grouped
  next enough =>
    cases grouped
    unfold processAggregateData
    by_cases ungrouped : cmd.gbKeys = []
    · simp only [ungrouped, map_nil] at fits ⊢
      cases fits
      cases nodes : task.nodes with
      | nil =>
        have created := @Placement.created cmd [] task [] [] task.memory (by simp [nodes])
          ⟨.nil, by simp, by simp⟩ rfl (.of_grows (.refl _)) known
        simpa [nodes] using created
      | cons node rest =>
        have nameless : node.group task.memory = [] := by
          have fits := (settled node (by simp [nodes])).fits
          generalize same : node.groupbyNums.map (AggregateNum.value task.memory) = group at fits
          cases fits
          exact same
        have found := @Placement.found cmd [] task [] 0 node task.memory (by simp [nodes]) nameless
          (.of_grows (.refl _)) known
        simpa [nodes] using found
    · rw [if_neg ungrouped]
      have extraction := extractGroup_extraction cmd map task.memory
      generalize extractGroup cmd map task.memory = extracted at extraction
      simp only at extraction ⊢
      rw [if_neg (by rwa [extraction.count])]
      have outlives := Outlives.of_grows extraction.grows
      have candidate := extraction.settled known fits
      rcases find_cases (fun node member => (settled node member).outlives outlives) candidate with
        ⟨nowhere, absent⟩ | ⟨place, node, there, here, same⟩
      · rw [nowhere]
        refine .created ?_ candidate extraction.values outlives (known.grows extraction.grows)
        intro node member equal
        apply absent node member
        rw [(settled node member).group_outlives outlives, equal, extraction.values]
      · rw [there]
        have member : node ∈ task.nodes := mem_of_getElem? here
        refine .found here ?_ extraction.outlives_destroy (extraction.known_destroy known)
        rw [← (settled node member).group_outlives outlives, same, extraction.values]

end

/-! ### The invariant -/

structure Consistent (cmd : Cmd) (kinds : List Kind) (ledger : Ledger Record) (task : Task) : Prop where
  running : task.faulted = false ∧ task.destroyed = false
  known : Known task.memory
  window : Counted cmd kinds task.memory ledger.remaining task.nodes
  records : task.records = BitVec.ofNat 32 ledger.remaining.length
  slots : List.Forall₂ (fun closed (slot : Slot) => Counted cmd kinds task.memory closed slot.nodes ∧
    slot.records = BitVec.ofNat 32 closed.length) ledger.closed task.slots
  bounded : ledger.remaining.length < 2 ^ 31

def accepted (cmd : Cmd) (record : Record) : Bool :=
  cmd.condition.all (fun condition => condition record) && (groupOf cmd record.map).isSome

structure Suits (cmd : Cmd) (kinds : List Kind) (record : Record) : Prop where
  integral : Integral cmd record.map
  fits : ∀ group, groupOf cmd record.map = some group → Fits kinds group

section

variable {cmd : Cmd} {kinds : List Kind} {task : Task} {ledger : Ledger Record} {record : Record}

theorem Ledger.add_nil {Record : Type} (ledger : Ledger Record) : ledger.add [] = ledger := by
  simp [Ledger.add]

theorem Consistent.outlives (consistent : Consistent cmd kinds ledger task) (outlives : Outlives task.memory later)
    (known : Known later) : Consistent cmd kinds ledger { task with memory := later } :=
  ⟨consistent.running, known, consistent.window.outlives outlives, consistent.records,
    consistent.slots.imp fun _ _ slot => ⟨slot.1.outlives outlives, slot.2⟩, consistent.bounded⟩

theorem processAggregateData_none (ungrouped : groupOf cmd record.map = none) (known : Known task.memory) :
    ∃ later, processAggregateData cmd record.map task = (none, { task with memory := later }) ∧
      Outlives task.memory later ∧ Known later := by
  unfold groupOf at ungrouped
  split at ungrouped
  next few =>
    have keyed : cmd.gbKeys ≠ [] := by
      intro empty
      simp [empty] at few
    have extraction := extractGroup_extraction cmd record.map task.memory
    unfold processAggregateData
    rw [if_neg keyed]
    generalize extractGroup cmd record.map task.memory = extracted at extraction
    simp only at extraction ⊢
    rw [if_pos (by rwa [extraction.count])]
    exact ⟨_, rfl, extraction.outlives_destroy, extraction.known_destroy known⟩
  · cases ungrouped

theorem Consistent.enter {nodes : List Node} (consistent : Consistent cmd kinds ledger task)
    (outlives : Outlives task.memory later) (known : Known later) (room : ledger.remaining.length + 1 < 2 ^ 31)
    (counted : Counted cmd kinds later (ledger.remaining ++ [record]) nodes) :
    Consistent cmd kinds (ledger.add [record]) { task with nodes, memory := later, records := task.records + 1 } := by
  refine ⟨consistent.running, known, ?_, ?_, ?_, ?_⟩
  · rwa [Ledger.remaining_add]
  · simp [consistent.records, Ledger.remaining_add, BitVec.ofNat_add]
  · exact consistent.slots.imp fun _ _ slot => ⟨slot.1.outlives outlives, slot.2⟩
  · simpa [Ledger.remaining_add] using room

variable {α : Type}

theorem set_modify (list : List α) (place : Nat) (change : α → α) (other : α) :
    (list.modify place change).set place other = list.set place other := by
  apply ext_getElem?
  intro index
  rw [List.getElem?_set, List.getElem?_set, List.getElem?_modify]
  by_cases equal : place = index
  · simp [equal]
  · simp [equal]

theorem set_append_last (list : List α) (last other : α) :
    (list ++ [last]).set list.length other = list ++ [other] := by
  simp

theorem Consistent.placed (consistent : Consistent cmd kinds ledger task) (integral : Integral cmd record.map)
    (room : ledger.remaining.length + 1 < 2 ^ 31) {group : List GroupValue} (grouped : groupOf cmd record.map = some group)
    {place : Nat} {after : Task} (placement : Placement cmd kinds task group (some place, after)) :
    ∃ node, after.nodes[place]? = some node ∧ Consistent cmd kinds (ledger.add [record]) { after with
          records := after.records + 1
          nodes := after.nodes.set place { node with nums := (addMap cmd record.map node.nums after.memory).1 }
          memory := (addMap cmd record.map node.nums after.memory).2 } := by
  cases placement with
  | @found _ node later here same outlives known =>
    have member : node ∈ task.nodes := mem_of_getElem? here
    have settled := consistent.window.settled node member
    obtain ⟨tallied, grows⟩ := (consistent.window.tallied node member).add record integral later
    have lasting := outlives.trans (.of_grows grows)
    have unchanged := settled.group_outlives lasting
    refine ⟨node.count, by simp [here], ?_⟩
    have counted := (consistent.window.outlives lasting).set here
      (show ({ node.count with nums := (addMap cmd record.map node.nums later).1 } : Node).groupbyNums =
        node.groupbyNums from rfl)
      (by rw [unchanged, same]; exact grouped) (by rw [unchanged]; exact tallied)
    have entered := consistent.enter lasting (known.grows grows) room counted
    simp only [set_modify]
    exact entered
  | @created nums later absent settled values outlives known =>
    obtain ⟨tallied, grows⟩ := tallied_create nums record integral later
    have lasting := outlives.trans (.of_grows grows)
    have same := (settled.values_grows grows.strings).trans values
    refine ⟨.create cmd nums, by simp, ?_⟩
    generalize addMap cmd record.map (Node.create cmd nums).nums later = added at tallied grows lasting same ⊢
    have counted := @Counted.append cmd kinds added.2 ledger.remaining { Node.create cmd nums with nums := added.1 }
      task.nodes record (consistent.window.outlives lasting) (grouped.trans (congrArg some same.symm))
      (settled.outlives (.of_grows grows))
      (fun other member equal => absent other member
        (((consistent.window.settled other member).group_outlives lasting).symm.trans (equal.trans same)))
      tallied
    have entered := consistent.enter lasting (known.grows grows) room counted
    simp only [set_append_last]
    exact entered

/-- A record is passed over, which changes nothing that a node needs, or it is placed. -/
theorem Consistent.recorded (consistent : Consistent cmd kinds ledger task) (suits : Suits cmd kinds record) :
    (accepted cmd record = false ∧ ∃ later, processRecord cmd task record = { task with memory := later } ∧
      Outlives task.memory later ∧ Known later) ∨
    ∃ group place after, accepted cmd record = true ∧ groupOf cmd record.map = some group ∧
      Placement cmd kinds task group (some place, after) ∧ ∀ node, after.nodes[place]? = some node →
        processRecord cmd task record = { after with
          records := after.records + 1
          nodes := after.nodes.set place { node with nums := (addMap cmd record.map node.nums after.memory).1 }
          memory := (addMap cmd record.map node.nums after.memory).2 } := by
  unfold processRecord
  by_cases passes : cmd.condition.all (fun condition => condition record) = true
  · rw [if_neg (by simp [consistent.running.1, passes])]
    cases grouped : groupOf cmd record.map with
    | none =>
      obtain ⟨later, left, outlives, known⟩ := processAggregateData_none grouped consistent.known
      rw [left]
      exact .inl ⟨by simp [accepted, grouped], later, rfl, outlives, known⟩
    | some group =>
      have placement := processAggregateData_placement consistent.known consistent.window.settled grouped
        (suits.fits group grouped)
      generalize processAggregateData cmd record.map task = placed at placement
      obtain ⟨place, after⟩ := placed
      cases place with
      | none => cases placement
      | some place =>
        refine .inr ⟨group, place, after, by simp [accepted, passes, grouped], rfl, placement, fun node here => ?_⟩
        simp only [here]
  · rw [if_pos (.inr passes)]
    exact .inl ⟨by simp [accepted, passes], task.memory, rfl, .of_grows (.refl _), consistent.known⟩

theorem Consistent.processRecord (consistent : Consistent cmd kinds ledger task) (suits : Suits cmd kinds record)
    (room : ledger.remaining.length + 1 < 2 ^ 31) :
    Consistent cmd kinds (ledger.add (if accepted cmd record then [record] else [])) (processRecord cmd task record) := by
  rcases consistent.recorded suits with
    ⟨skipped, later, left, outlives, known⟩ | ⟨group, place, after, taken, grouped, placement, left⟩
  · rw [left, skipped, if_neg Bool.false_ne_true, Ledger.add_nil]
    exact consistent.outlives outlives known
  · obtain ⟨node, here, entered⟩ := consistent.placed suits.integral room grouped placement
    rw [left node here, if_pos taken]
    exact entered

end

section

variable {cmd : Cmd} {kinds : List Kind} {task : Task} {ledger : Ledger Record}

theorem Ledger.add_add {Record : Type} (ledger : Ledger Record) (first second : List Record) :
    (ledger.add first).add second = ledger.add (first ++ second) := by
  simp [Ledger.add]

theorem accepted_cons (record : Record) (records : List Record) : (record :: records).filter (accepted cmd) =
      (if accepted cmd record then [record] else []) ++ records.filter (accepted cmd) := by
  rw [filter_cons]
  split
  · rfl
  · rfl

theorem processDataAggr_keeps {Kept : Ledger Record → Task → Prop}
    (one : ∀ {ledger task record}, Kept ledger task → Suits cmd kinds record →
      ledger.remaining.length + 1 < 2 ^ 31 →
        Kept (ledger.add (if accepted cmd record then [record] else [])) (processRecord cmd task record))
    (records : List Record) (kept : Kept ledger task) (suits : ∀ record ∈ records, Suits cmd kinds record)
    (room : ledger.remaining.length + records.length < 2 ^ 31) :
    Kept (ledger.add (records.filter (accepted cmd))) (processDataAggr cmd records task) := by
  induction records generalizing ledger task with
  | nil => simpa [Ledger.add_nil, StreamProcessor.processDataAggr] using kept
  | cons record records ih =>
    have length : (record :: records).length = records.length + 1 := rfl
    have first := one kept (suits record (by simp)) (by omega)
    have rest := ih first (fun other member => suits other (mem_cons_of_mem _ member)) (by
      rw [Ledger.remaining_add, length_append]
      split
      · simp only [length_singleton]; omega
      · simp only [length_nil]; omega)
    rw [Ledger.add_add, ← accepted_cons] at rest
    exact rest

theorem Consistent.processDataAggr (records : List Record) (consistent : Consistent cmd kinds ledger task)
    (suits : ∀ record ∈ records, Suits cmd kinds record)
    (room : ledger.remaining.length + records.length < 2 ^ 31) :
    Consistent cmd kinds (ledger.add (records.filter (accepted cmd))) (processDataAggr cmd records task) :=
  processDataAggr_keeps Consistent.processRecord records consistent suits room

end

/-! ### A hop -/

theorem positive_ofNat {count : Nat} (bounded : count < 2 ^ 31) : 0 < (BitVec.ofNat 32 count).toInt ↔ 0 < count := by
  rw [BitVec.toInt_ofNat', Int.bmod_eq_of_le (by omega) (by omega)]
  omega

section

variable {cmd : Cmd} {kinds : List Kind} {memory : Memory} {closed : List (List Record)} {slots : List Slot}
  {current : List Record}

theorem length_ofGroup_le (group : List GroupValue) (records : List Record) :
    (ofGroup cmd group records).length ≤ records.length := length_filter_le _ _

variable {node : Node} {nodes parts : List Node}

theorem sinceSlots_tallied {group : List GroupValue}
    (slotsCounted : List.Forall₂ (fun closed (slot : Slot) => Counted cmd kinds memory closed slot.nodes) closed slots)
    (settled : Settled kinds memory nums) (values : nums.map (AggregateNum.value memory) = group)
    (tallied : Tallied cmd (ofGroup cmd group (closed.flatten ++ current)) node) :
    ∃ part, sinceSlots cmd memory nums slots node = some part ∧ Tallied cmd (ofGroup cmd group current) part ∧
      part.groupbyNums = node.groupbyNums := by
  induction slotsCounted generalizing node with
  | nil => exact ⟨node, rfl, by simpa using tallied, rfl⟩
  | @cons records slot closed slots counted _ ih =>
    rw [flatten_cons, append_assoc, ofGroup_append] at tallied
    unfold sinceSlots
    rcases find_cases counted.settled settled with ⟨nowhere, absent⟩ | ⟨place, prev, there, here, same⟩
    · rw [nowhere]
      rw [values] at absent
      rw [counted.ofGroup_eq_nil absent, nil_append] at tallied
      exact ih tallied
    · rw [there]
      simp only [Option.bind_some, here]
      have earlier := counted.tallied prev (mem_of_getElem? here)
      rw [same, values] at earlier
      obtain ⟨part, left, rest, kept⟩ := ih (tallied.remove earlier)
      exact ⟨part, left, rest, kept⟩

structure Parts (cmd : Cmd) (kinds : List Kind) (memory : Memory) (current : List Record) (nodes parts : List Node) :
    Prop where
  sublist : (parts.map (Node.group memory)).Sublist (nodes.map (Node.group memory))
  settled : ∀ part ∈ parts, Settled kinds memory part.groupbyNums
  tallied : ∀ part ∈ parts, Tallied cmd (ofGroup cmd (part.group memory) current) part
  present : ∀ part ∈ parts, ofGroup cmd (part.group memory) current ≠ []
  complete : ∀ node ∈ nodes, ofGroup cmd (node.group memory) current ≠ [] →
    ∃ part ∈ parts, part.group memory = node.group memory

theorem Parts.keep {part : Node} (others : Parts cmd kinds memory current nodes parts)
    (same : part.groupbyNums = node.groupbyNums) (settled : Settled kinds memory node.groupbyNums)
    (tallied : Tallied cmd (ofGroup cmd (node.group memory) current) part)
    (filled : ofGroup cmd (node.group memory) current ≠ []) :
    Parts cmd kinds memory current (node :: nodes) (part :: parts) := by
  have group : part.group memory = node.group memory := by
    unfold Node.group
    rw [same]
  refine ⟨?_, ?_, ?_, ?_, ?_⟩
  · rw [map_cons, map_cons, group]
    exact others.sublist.cons_cons _
  · intro one member
    rcases mem_cons.mp member with rfl | later
    · exact same ▸ settled
    · exact others.settled one later
  · intro one member
    rcases mem_cons.mp member with rfl | later
    · rw [group]
      exact tallied
    · exact others.tallied one later
  · intro one member
    rcases mem_cons.mp member with rfl | later
    · rw [group]
      exact filled
    · exact others.present one later
  · intro one member nonempty
    rcases mem_cons.mp member with rfl | later
    · exact ⟨part, by simp, group⟩
    · obtain ⟨other, among, equal⟩ := others.complete one later nonempty
      exact ⟨other, mem_cons_of_mem _ among, equal⟩

theorem Parts.drop (others : Parts cmd kinds memory current nodes parts)
    (gone : ofGroup cmd (node.group memory) current = []) : Parts cmd kinds memory current (node :: nodes) parts := by
  refine ⟨others.sublist.cons _, others.settled, others.tallied, others.present, ?_⟩
  intro one member nonempty
  rcases mem_cons.mp member with rfl | later
  · exact absurd gone nonempty
  · exact others.complete one later nonempty

theorem slotNodes_parts (nodes made : List Node)
    (slotsCounted : List.Forall₂ (fun closed (slot : Slot) => Counted cmd kinds memory closed slot.nodes) closed slots)
    (settled : ∀ node ∈ nodes, Settled kinds memory node.groupbyNums)
    (tallied : ∀ node ∈ nodes, Tallied cmd (ofGroup cmd (node.group memory) (closed.flatten ++ current)) node)
    (bounded : current.length < 2 ^ 31) (madeSettled : ∀ part ∈ made, Settled kinds memory part.groupbyNums) :
    ∃ parts, slotNodes cmd memory slots nodes made = some (made ++ parts) ∧
      Parts cmd kinds memory current nodes parts := by
  induction nodes generalizing made with
  | nil => exact ⟨[], by simp [slotNodes], ⟨.slnil, by simp, by simp, by simp, by simp⟩⟩
  | cons node nodes ih =>
    have here := settled node (by simp)
    obtain ⟨part, since, counts, same⟩ := sinceSlots_tallied slotsCounted here
      (show _ = node.group memory from rfl) (tallied node (by simp))
    have partSettled : Settled kinds memory part.groupbyNums := same ▸ here
    have rest := fun made => ih made (fun node member => settled node (mem_cons_of_mem _ member))
      fun node member => tallied node (mem_cons_of_mem _ member)
    have small := Nat.lt_of_le_of_lt (@length_ofGroup_le cmd (node.group memory) current) bounded
    unfold slotNodes
    simp only [since, counts.count, positive_ofNat small]
    by_cases filled : ofGroup cmd (node.group memory) current = []
    · rw [if_neg (by simp [filled])]
      obtain ⟨parts, made_eq, parts_ok⟩ := rest made madeSettled
      exact ⟨parts, made_eq, parts_ok.drop filled⟩
    · rw [if_pos (length_pos_iff.mpr filled), find_eq madeSettled here]
      obtain ⟨parts, made_eq, parts_ok⟩ := rest (made ++ [part]) (by
        intro one member
        rcases mem_append.mp member with earlier | new
        · exact madeSettled one earlier
        · exact mem_singleton.mp new ▸ partSettled)
      exact ⟨part :: parts, by simpa using made_eq, parts_ok.keep same here counts filled⟩

theorem Parts.counted {nodes parts : List Node} (parts_ok : Parts cmd kinds memory current nodes parts)
    (window : Counted cmd kinds memory (closed.flatten ++ current) nodes) : Counted cmd kinds memory current parts := by
  refine ⟨parts_ok.settled, window.distinct.sublist parts_ok.sublist, ?_, ?_, parts_ok.tallied⟩
  · intro part member
    obtain ⟨record, among⟩ := exists_mem_of_ne_nil _ (parts_ok.present part member)
    obtain ⟨there, grouped⟩ := mem_ofGroup.mp among
    exact ⟨record, there, grouped⟩
  · intro record member
    obtain ⟨node, among, grouped⟩ := window.complete record (mem_append_right _ member)
    have nonempty := ne_nil_of_mem (mem_ofGroup.mpr ⟨member, grouped⟩)
    obtain ⟨part, here, same⟩ := parts_ok.complete node among nonempty
    exact ⟨part, here, by rw [same]; exact grouped⟩

theorem slotRecords_eq {total : BitVec 32} (slotsCounted : List.Forall₂ (fun closed (slot : Slot) =>
      slot.records = BitVec.ofNat 32 closed.length) closed slots)
    (records : total = BitVec.ofNat 32 (closed.flatten ++ current).length) :
    slots.foldl (fun records slot => records - slot.records) total = BitVec.ofNat 32 current.length := by
  induction slotsCounted generalizing total with
  | nil => simpa using records
  | @cons first slot closed slots here _ ih =>
    rw [foldl_cons]
    apply ih
    rw [records, here, flatten_cons, append_assoc, @length_append _ first, BitVec.ofNat_add, add_sub_cancel_left]

variable {task : Task} {ledger : Ledger Record}

theorem Consistent.processHoppingSlot (consistent : Consistent cmd kinds ledger task) :
    Consistent cmd kinds ledger.close (processHoppingSlot cmd task) := by
  have bounded : ledger.current.length < 2 ^ 31 := by
    apply Nat.lt_of_le_of_lt _ consistent.bounded
    simp [Ledger.remaining]
  obtain ⟨parts, made, parts_ok⟩ := slotNodes_parts task.nodes []
    (consistent.slots.imp fun _ _ slot => slot.1) consistent.window.settled consistent.window.tallied bounded (by simp)
  have counted := parts_ok.counted consistent.window
  unfold StreamProcessor.processHoppingSlot
  rw [made]
  refine ⟨consistent.running, consistent.known, ?_, ?_, ?_, ?_⟩
  · rw [Ledger.remaining_close]
    exact consistent.window
  · rw [Ledger.remaining_close]
    exact consistent.records
  · apply rel_append consistent.slots
    refine .cons ⟨counted, ?_⟩ .nil
    exact slotRecords_eq (consistent.slots.imp fun _ _ slot => slot.2) consistent.records
  · rw [Ledger.remaining_close]
    exact consistent.bounded

end

section

variable {cmd : Cmd} {kinds : List Kind} {memory : Memory} {slot : Slot} {first rest : List Record}

theorem ofNat_eq_add_iff {count more : Nat} (bounded : count + more < 2 ^ 31) :
    BitVec.ofNat 32 count = BitVec.ofNat 32 (count + more) ↔ more = 0 := by
  constructor
  · intro same
    have numbers := congrArg BitVec.toNat same
    rw [BitVec.toNat_ofNat, BitVec.toNat_ofNat, mod_eq_of_lt (by omega), mod_eq_of_lt (by omega)] at numbers
    omega
  · rintro rfl
    rfl

theorem destroy_nil : memory.destroy [] = memory := by
  simp [Memory.destroy]

theorem pruneNodes_parts (nodes : List Node) (counted : Counted cmd kinds memory first slot.nodes)
    (settled : ∀ node ∈ nodes, Settled kinds memory node.groupbyNums)
    (present : ∀ node ∈ nodes, ofGroup cmd (node.group memory) (first ++ rest) ≠ [])
    (tallied : ∀ node ∈ nodes, Tallied cmd (ofGroup cmd (node.group memory) (first ++ rest)) node)
    (bounded : (first ++ rest).length < 2 ^ 31) (plain : slot.nodes = [] ∨ ∀ node ∈ nodes, node.handles = []) :
    ∃ kept, pruneNodes cmd slot nodes memory = some (kept, memory) ∧ Parts cmd kinds memory rest nodes kept := by
  induction nodes with
  | nil => exact ⟨[], rfl, ⟨.slnil, by simp, by simp, by simp, by simp⟩⟩
  | cons node nodes ih =>
    have here := settled node (by simp)
    have counts := tallied node (by simp)
    have nonempty := present node (by simp)
    have small := Nat.lt_of_le_of_lt (@length_ofGroup_le cmd (node.group memory) (first ++ rest)) bounded
    rw [ofGroup_append] at counts nonempty small
    obtain ⟨kept, pruned, parts⟩ := ih (fun node member => settled node (mem_cons_of_mem _ member))
      (fun node member => present node (mem_cons_of_mem _ member))
      (fun node member => tallied node (mem_cons_of_mem _ member))
      (plain.imp id fun empty node member => empty node (mem_cons_of_mem _ member))
    unfold pruneNodes
    rcases find_cases counted.settled here with ⟨nowhere, absent⟩ | ⟨place, prev, there, found, same⟩
    · rw [nowhere]
      have nothing : ofGroup cmd (node.group memory) first = [] := counted.ofGroup_eq_nil absent
      rw [nothing, nil_append] at counts nonempty
      simp only [Option.bind_none, pruned, Option.map_some]
      exact ⟨node :: kept, rfl, parts.keep rfl here counts nonempty⟩
    · rw [there]
      simp only [Option.bind_some, found]
      have earlier := counted.tallied prev (mem_of_getElem? found)
      have same_group : prev.group memory = node.group memory := same
      rw [same_group] at earlier
      rw [length_append] at small
      have decided : prev.records = node.records ↔ ofGroup cmd (node.group memory) rest = [] := by
        rw [earlier.count, counts.count, length_append, ofNat_eq_add_iff small, length_eq_zero_iff]
      by_cases gone : ofGroup cmd (node.group memory) rest = []
      · have filled : slot.nodes ≠ [] := ne_nil_of_mem (mem_of_getElem? found)
        rw [if_pos (decided.mpr gone), plain.resolve_left filled node (by simp), destroy_nil]
        exact ⟨kept, pruned, parts.drop gone⟩
      · rw [if_neg (fun equal => gone (decided.mp equal)), pruned, Option.map_some]
        exact ⟨node.remove cmd prev :: kept, rfl, parts.keep rfl here (counts.remove earlier) gone⟩

def Prunable (task : Task) : Prop :=
  match task.slots with
  | [] => True
  | slot :: _ => slot.nodes = [] ∨ (∀ node ∈ task.nodes, node.handles = []) ∧ ∀ node ∈ slot.nodes, node.handles = []

variable {task : Task} {ledger : Ledger Record}

theorem Consistent.windowPrune (consistent : Consistent cmd kinds ledger task) (hopping : cmd.window = .hopping)
    (prunable : Prunable task) : Consistent cmd kinds ledger.prune (windowPrune cmd task) := by
  unfold StreamProcessor.windowPrune
  rw [hopping]
  have slots := consistent.slots
  unfold Prunable at prunable
  cases closed : ledger.closed with
  | nil =>
    rw [closed] at slots
    have none : task.slots = [] := forall₂_nil_left_iff.mp slots
    have same : ledger.prune = ledger := by
      unfold Ledger.prune
      rw [closed, tail_nil, ← closed]
    rw [none, same]
    exact consistent
  | cons first closedRest =>
    rw [closed] at slots
    obtain ⟨slot, slotsRest, ⟨counted, slotRecords⟩, others, here⟩ := forall₂_cons_left_iff.mp slots
    have remaining := Ledger.remaining_prune closed
    have window := consistent.window
    have records := consistent.records
    have bounded := consistent.bounded
    rw [here] at prunable
    rw [remaining] at window records bounded
    obtain ⟨kept, pruned, parts⟩ := pruneNodes_parts task.nodes counted window.settled
      (fun node member => window.ofGroup_ne_nil member) window.tallied bounded (prunable.imp id And.left)
    have unheld : slot.nodes.flatMap Node.handles = [] := by
      rcases prunable with empty | ⟨_, plain⟩
      · simp [empty]
      · simpa using plain
    rw [here]
    simp only [pruned, unheld, destroy_nil]
    refine ⟨consistent.running, consistent.known, ?_, ?_, ?_, ?_⟩
    · exact @Parts.counted cmd kinds task.memory [first] ledger.prune.remaining task.nodes kept parts
        (by simpa using window)
    · rw [records, slotRecords, length_append, BitVec.ofNat_add, add_sub_cancel_left]
    · have tail : ledger.prune.closed = closedRest := by simp [Ledger.prune, closed]
      rw [tail]
      exact others
    · rw [length_append] at bounded
      omega

end

/-! ### The report -/

def recompute (cmd : Cmd) (key : CmdKey) (records : List Record) : AggrFunc → Option Packed
  | .avg => some (.float (toDouble (Ledger.total (addend cmd key) records) / Float.ofInt records.length).toFloat32)
  | .sum => some (.int (Ledger.total (addend cmd key) records))
  | .count => some (.int (BitVec.ofNat 64 records.length))
  | .min | .max => none

structure Reported (cmd : Cmd) (records : List Record) (rows : List Row) : Prop where
  distinct : (rows.map Row.group).Nodup
  groups : ∀ group, group ∈ rows.map Row.group ↔ ∃ record ∈ records, groupOf cmd record.map = some group
  values : ∀ row ∈ rows, ∀ (place : Nat) key func, cmd.keys[place]? = some key → key.aggrFunc = some func →
    row.values[place]? = some (recompute cmd key (ofGroup cmd row.group records) func)

def Cmd.Additive (cmd : Cmd) : Prop :=
  ∀ key ∈ cmd.keys, ∀ func, key.aggrFunc = some func → func = .avg ∨ func = .sum ∨ func = .count

section

variable {cmd : Cmd} {kinds : List Kind} {memory : Memory} {records : List Record} {node : Node} {nodes : List Node}

theorem toInt_ofNat_of_lt {count : Nat} (bounded : count < 2 ^ 31) : (BitVec.ofNat 32 count).toInt = count := by
  rw [BitVec.toInt_ofNat', Int.bmod_eq_of_le (by omega) (by omega)]

variable {place : Nat}

theorem getElem?_of_forall₂ {α β : Type} {related : α → β → Prop} {left : List α} {right : List β}
    (all : List.Forall₂ related left right) {first : α} (here : left[place]? = some first) :
    ∃ second, right[place]? = some second ∧ related first second := by
  induction all generalizing place with
  | nil => cases here
  | @cons head other _ _ holds _ ih =>
    cases place with
    | zero =>
      cases here
      exact ⟨other, rfl, holds⟩
    | succ place => exact ih here

theorem Tallied.calc (tallied : Tallied cmd records node) (additive : cmd.Additive)
    (bounded : records.length < 2 ^ 31) {key : CmdKey} {func : AggrFunc} (here : cmd.keys[place]? = some key)
    (function : key.aggrFunc = some func) :
    (row cmd memory node).values[place]? = some (recompute cmd key records func) := by
  obtain ⟨num, there, sums⟩ := getElem?_of_forall₂ tallied.sums here
  have packed : (row cmd memory node).values[place]? = some (aggregateCalc func node num) := by
    simp [row, List.getElem?_zipWith, here, there, packKey, function]
  rw [packed]
  have length := toInt_ofNat_of_lt bounded
  apply congrArg some
  rcases additive key (mem_of_getElem? here) func function with rfl | rfl | rfl
  · obtain ⟨type, total⟩ := sums (.inl function)
    simp [aggregateCalc, type, recompute, total, tallied.count, length]
  · obtain ⟨type, total⟩ := sums (.inr function)
    simp [aggregateCalc, type, recompute, total]
  · simp only [aggregateCalc, recompute, tallied.count]
    rw [BitVec.signExtend, length, BitVec.ofInt_natCast]

theorem row_groups : (nodes.map (row cmd memory)).map Row.group = nodes.map (Node.group memory) := by
  rw [map_map]
  rfl

theorem Counted.mem_rows (counted : Counted cmd kinds memory records nodes) (group : List GroupValue) :
    group ∈ (nodes.map (row cmd memory)).map Row.group ↔ ∃ record ∈ records, groupOf cmd record.map = some group := by
  rw [row_groups]
  constructor
  · intro member
    obtain ⟨node, among, rfl⟩ := mem_map.mp member
    exact counted.present node among
  · rintro ⟨record, member, grouped⟩
    obtain ⟨node, among, same⟩ := counted.complete record member
    rw [grouped] at same
    exact mem_map.mpr ⟨node, among, (Option.some.inj same).symm⟩

theorem Counted.reported (counted : Counted cmd kinds memory records nodes) (additive : cmd.Additive)
    (bounded : records.length < 2 ^ 31) : Reported cmd records (nodes.map (row cmd memory)) := by
  refine ⟨by rw [row_groups]; exact counted.distinct, counted.mem_rows, ?_⟩
  intro one member place key func here function
  obtain ⟨node, among, rfl⟩ := mem_map.mp member
  have small := Nat.lt_of_le_of_lt (@length_ofGroup_le cmd (node.group memory) records) bounded
  exact (counted.tallied node among).calc additive small here function

def bookkeep (cmd : Cmd) : Event → Ledger Record → Ledger Record
  | .batch records, ledger => ledger.add (records.filter (accepted cmd))
  | .hopTimer, ledger => ledger.close
  | .windowTimer, ledger => ledger.prune
  | .destroy, ledger => ledger

/-- Values of the kinds the query is for, fewer records than an `int` can count, and no
strings in what a window timer takes off. -/
def Orderly (cmd : Cmd) (kinds : List Kind) (task : Task) : Event → Prop
  | .batch records => (∀ record ∈ records, Suits cmd kinds record) ∧ task.records.toNat + records.length < 2 ^ 31
  | .hopTimer => True
  | .windowTimer => Prunable task
  | .destroy => False

variable {task : Task} {ledger : Ledger Record}

section

variable (consistent : Consistent cmd kinds ledger task)
include consistent

theorem Consistent.packaged :
    packageResults cmd task = { task with reports := task.reports ++ [task.nodes.map (row cmd task.memory)] } := by
  unfold packageResults
  rw [if_neg]
  intro any
  obtain ⟨node, member, dangling⟩ := any_eq_true.mp any
  rw [(consistent.window.settled node member).dangling] at dangling
  cases dangling

theorem Consistent.positive : 0 < task.records.toInt ↔ ledger.remaining ≠ [] := by
  rw [consistent.records, positive_ofNat consistent.bounded, length_pos_iff]

theorem Consistent.timer_eq (hopping : cmd.window = .hopping) :
    StreamProcessor.step cmd .windowTimer task = StreamProcessor.windowPrune cmd { task with
        reports := task.reports ++
          (if ledger.remaining = [] then [] else [task.nodes.map (row cmd task.memory)]) } := by
  have timed : cmd.window ≠ .default := by simp [hopping]
  unfold StreamProcessor.step
  rw [if_neg (by simp [consistent.running])]
  simp only [if_neg timed]
  unfold windowTimer
  simp only [consistent.packaged, consistent.positive]
  have alive : ¬ task.faulted = true := by simp [consistent.running]
  by_cases empty : ledger.remaining = []
  · simp only [empty, ne_eq, not_true, if_false, if_true, append_nil]
    rw [if_neg alive]
  · simp only [empty, ne_eq, not_false_eq_true, if_true, if_false]
    rw [if_neg alive]

theorem Consistent.step_batch (hopping : cmd.window = .hopping) :
    StreamProcessor.step cmd (.batch records) task = StreamProcessor.processDataAggr cmd records task := by
  simp [StreamProcessor.step, batch, consistent.running, hopping]

theorem Consistent.step_hopTimer (hopping : cmd.window = .hopping) :
    StreamProcessor.step cmd .hopTimer task = StreamProcessor.processHoppingSlot cmd task := by
  simp [StreamProcessor.step, consistent.running, hopping]

theorem Consistent.reporting (reports : List (List Row)) : Consistent cmd kinds ledger { task with reports } :=
  ⟨consistent.running, consistent.known, consistent.window, consistent.records, consistent.slots, consistent.bounded⟩

/-- Each orderly event keeps the task consistent with its ledger. -/
theorem Consistent.step (hopping : cmd.window = .hopping) (event : Event) (orderly : Orderly cmd kinds task event) :
    Consistent cmd kinds (bookkeep cmd event ledger) (step cmd event task) := by
  cases event with
  | batch records =>
    obtain ⟨suits, room⟩ := orderly
    have bounded := consistent.bounded
    rw [consistent.records, BitVec.toNat_ofNat, mod_eq_of_lt (by omega)] at room
    have processed := consistent.processDataAggr records suits room
    rw [consistent.step_batch hopping]
    exact processed
  | hopTimer =>
    rw [consistent.step_hopTimer hopping]
    exact consistent.processHoppingSlot
  | windowTimer =>
    rw [consistent.timer_eq hopping]
    exact (consistent.reporting _).windowPrune hopping orderly
  | destroy => cases orderly

end

theorem consistent_initial : Consistent cmd kinds .empty .initial :=
  ⟨⟨rfl, rfl⟩, by simp [Known, Task.initial], ⟨by simp [Task.initial], by simp [Task.initial], by simp [Task.initial],
    by simp [Ledger.empty, Ledger.remaining], by simp [Task.initial]⟩, rfl, .nil,
    by simp [Ledger.empty, Ledger.remaining]⟩

theorem consistent_after (hopping : cmd.window = .hopping) (events : List Event)
    (consistent : Consistent cmd kinds ledger task)
    (admitted : Runs.Admits (step cmd) (Orderly cmd kinds) task events) :
    Consistent cmd kinds (Runs.after (bookkeep cmd) ledger events) (Runs.after (step cmd) task events) := by
  induction events generalizing ledger task with
  | nil => exact consistent
  | cons event events ih =>
    obtain ⟨orderly, later⟩ := admitted
    exact ih (consistent.step hopping event orderly) later

theorem windowPrune_reports : (windowPrune cmd task).reports = task.reports := by
  unfold windowPrune
  cases cmd.window with
  | hopping =>
    cases task.slots with
    | nil => rfl
    | cons slot slots =>
      simp only
      cases pruneNodes cmd slot task.nodes task.memory with
      | none => rfl
      | some kept => rfl
  | _ =>
    simp only
    split
    · rfl
    · rfl

/-- Whenever the window timer fires, it reports the aggregates of the records since the end
of the slot that was taken off last, group by group. -/
theorem reported_of_orderly (hopping : cmd.window = .hopping) (additive : cmd.Additive) (events : List Event)
    (admitted : Runs.Admits (step cmd) (Orderly cmd kinds) .initial events) :
    let task := Runs.after (step cmd) .initial events
    let records := (Runs.after (bookkeep cmd) .empty events).remaining
    (records = [] ∧ (step cmd .windowTimer task).reports = task.reports) ∨
      ∃ rows, (step cmd .windowTimer task).reports = task.reports ++ [rows] ∧ Reported cmd records rows := by
  intro task records
  have consistent : Consistent cmd kinds (Runs.after (bookkeep cmd) .empty events) task :=
    consistent_after hopping events consistent_initial admitted
  have timer := congrArg Task.reports (consistent.timer_eq hopping)
  rw [windowPrune_reports] at timer
  by_cases empty : records = []
  · refine .inl ⟨empty, ?_⟩
    rw [if_pos empty, append_nil] at timer
    exact timer
  · refine .inr ⟨_, ?_, consistent.window.reported additive consistent.bounded⟩
    rw [if_neg empty] at timer
    exact timer

end

/-! ### Runs -/

/-- The query `SELECT g, COUNT(*), SUM(v), AVG(v) ... GROUP BY g` on a hopping window. -/
def perGroup : Cmd :=
  { keys := [⟨some [103], [], none, some 0⟩, ⟨none, [], some .count, none⟩, ⟨some [118], [], some .sum, none⟩,
      ⟨some [118], [], some .avg, none⟩]
    gbKeys := [⟨[103], []⟩], condition := none, stringToNumber := fun _ => none, window := .hopping }

def amountIn (group : Value) (amount : BitVec 64) : Record :=
  { tag := [], time := 0, map := [([103], group), ([118], .int amount)] }

theorem perGroup_additive : perGroup.Additive := by
  intro key member func function
  simp only [perGroup, mem_cons, not_mem_nil, or_false] at member
  rcases member with rfl | rfl | rfl | rfl
  · cases function
  · cases function
    exact .inr (.inr rfl)
  · cases function
    exact .inr (.inl rfl)
  · cases function
    exact .inl rfl

theorem suits_amountIn (group amount : BitVec 64) : Suits perGroup [.int] (amountIn (.int group) amount) := by
  constructor
  · intro key member function entry among dval
    simp only [perGroup, mem_cons, not_mem_nil, or_false] at member
    simp only [amountIn, mem_cons, not_mem_nil, or_false] at among
    rcases member with rfl | rfl | rfl | rfl
    · exact absurd rfl function
    · intro found
      cases found
    · rcases among with rfl | rfl
      · intro found
        cases found
      · intro found
        cases found
    · rcases among with rfl | rfl
      · intro found
        cases found
      · intro found
        cases found
  · intro values grouped
    obtain rfl : [GroupValue.int group] = values := Option.some.inj grouped
    exact .cons trivial .nil

theorem orderly_of_plain {cmd : Cmd} {kinds : List Kind} {task : Task} (window : ∀ node ∈ task.nodes, node.handles = [])
    (slots : ∀ slot ∈ task.slots, ∀ node ∈ slot.nodes, node.handles = []) : Orderly cmd kinds task .windowTimer := by
  unfold Orderly Prunable
  cases here : task.slots with
  | nil => trivial
  | cons slot rest => exact .inr ⟨window, slots slot (by simp [here])⟩

def hoppingRun (group second : Value) : List Event :=
  [.batch [amountIn group 1, amountIn second 10], .hopTimer, .batch [amountIn group 2], .windowTimer,
    .batch [amountIn group 4]]

theorem reported_of_orderly_hoppingRun : (∃ rows, (step perGroup .windowTimer
        (Runs.after (step perGroup) .initial (hoppingRun (.int 5) (.int 6)))).reports =
          (Runs.after (step perGroup) .initial (hoppingRun (.int 5) (.int 6))).reports ++ [rows] ∧
        Reported perGroup (Runs.after (bookkeep perGroup) .empty (hoppingRun (.int 5) (.int 6))).remaining rows) ∧
      (Runs.after (bookkeep perGroup) .empty (hoppingRun (.int 5) (.int 6))).remaining =
        [amountIn (.int 5) 2, amountIn (.int 5) 4] := by
  have suits : ∀ (amounts : List (BitVec 64 × BitVec 64)) (record : Record),
      record ∈ amounts.map (fun (group, amount) => amountIn (.int group) amount) → Suits perGroup [.int] record := by
    intro amounts record member
    obtain ⟨_, _, rfl⟩ := mem_map.mp member
    exact suits_amountIn _ _
  have orderly : Runs.Admits (step perGroup) (Orderly perGroup [.int]) .initial (hoppingRun (.int 5) (.int 6)) :=
    ⟨⟨suits [(5, 1), (6, 10)], by decide +kernel⟩, trivial, ⟨suits [(5, 2)], by decide +kernel⟩,
      orderly_of_plain (by decide +kernel) (by decide +kernel), ⟨suits [(5, 4)], by decide +kernel⟩, trivial⟩
  have remaining : (Runs.after (bookkeep perGroup) .empty (hoppingRun (.int 5) (.int 6))).remaining =
      [amountIn (.int 5) 2, amountIn (.int 5) 4] := rfl
  refine ⟨?_, remaining⟩
  rcases reported_of_orderly rfl perGroup_additive (hoppingRun (.int 5) (.int 6)) orderly with ⟨empty, _⟩ | reported
  · cases empty
  · exact reported

/-- With strings, the record after the slot was taken off is compared with a destroyed one. -/
theorem string_groups_not_reported :
    (Runs.after (step perGroup) .initial (hoppingRun (.str [120]) (.str [121]))).faulted = true ∧
      ¬ (((Runs.after (bookkeep perGroup) .empty (hoppingRun (.str [120]) (.str [121]))).remaining = [] ∧
          (step perGroup .windowTimer
            (Runs.after (step perGroup) .initial (hoppingRun (.str [120]) (.str [121])))).reports =
            (Runs.after (step perGroup) .initial (hoppingRun (.str [120]) (.str [121]))).reports) ∨
        ∃ rows, (step perGroup .windowTimer
            (Runs.after (step perGroup) .initial (hoppingRun (.str [120]) (.str [121])))).reports =
              (Runs.after (step perGroup) .initial (hoppingRun (.str [120]) (.str [121]))).reports ++ [rows] ∧
          Reported perGroup (Runs.after (bookkeep perGroup) .empty
            (hoppingRun (.str [120]) (.str [121]))).remaining rows) := by
  have remaining : (Runs.after (bookkeep perGroup) .empty (hoppingRun (.str [120]) (.str [121]))).remaining.length = 2 :=
    by decide +kernel
  have silent : (step perGroup .windowTimer
      (Runs.after (step perGroup) .initial (hoppingRun (.str [120]) (.str [121])))).reports.length =
      (Runs.after (step perGroup) .initial (hoppingRun (.str [120]) (.str [121]))).reports.length := by decide +kernel
  refine ⟨by decide +kernel, ?_⟩
  rintro (⟨empty, _⟩ | ⟨rows, reported, _⟩)
  · rw [empty] at remaining
    cases remaining
  · rw [reported, length_append, length_singleton] at silent
    omega

end FluentBit.StreamProcessor
