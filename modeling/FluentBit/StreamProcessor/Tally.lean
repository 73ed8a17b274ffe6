import FluentBit.Foundation.Tally
import FluentBit.StreamProcessor.Groups
import Mathlib.Data.BitVec

/-! What the numbers of an aggregation node amount to: the number of records, and for a sum
or an average the total of the integers that the records have for its key. -/

set_option autoImplicit false

namespace FluentBit.StreamProcessor

open Multiline (sdsEq)

def amount (cmd : Cmd) (map : Map) (entry : Bytes) (key : CmdKey) : BitVec 64 :=
  match (valueFor map entry key).bind (objectToNumber cmd) with
  | some (.int ival) => ival
  | _ => 0

def addend (cmd : Cmd) (key : CmdKey) (record : Record) : BitVec 64 :=
  (record.map.map fun entry => amount cmd record.map entry.1 key).sum

def Integral (cmd : Cmd) (map : Map) : Prop :=
  ∀ key ∈ cmd.keys, key.aggrFunc ≠ none → ∀ entry ∈ map, ∀ dval,
    (valueFor map entry.1 key).bind (objectToNumber cmd) ≠ some (.float dval)

def CmdKey.additive (key : CmdKey) : Prop := key.aggrFunc = some .avg ∨ key.aggrFunc = some .sum

def Sums (base : CmdKey → BitVec 64) (key : CmdKey) (num : AggregateNum) : Prop :=
  key.additive → num.type = .i64 ∧ num.i64 = base key

section

variable {cmd : Cmd} {map : Map} {base other : CmdKey → BitVec 64} {memory : Memory}

theorem setNum_grows (value : Value) (num : AggregateNum) :
    Grows memory (setNum value num memory).2 := by
  cases value with
  | str text =>
    cases held : num.string with
    | some handle =>
      simp only [setNum, held]
      exact .refl memory
    | none =>
      simp only [setNum, held]
      exact .create text memory
  | _ => exact .refl memory

theorem addValue_grows (key : CmdKey) (value : Value) (num : AggregateNum) :
    Grows memory (addValue cmd key value num memory).2 := by
  unfold addValue
  cases key.aggrFunc with
  | none => exact setNum_grows value num
  | some func =>
    simp only
    cases objectToNumber cmd value with
    | none | some number => exact .refl memory

theorem Sums.addValue {key : CmdKey} {num : AggregateNum} {entry : Bytes} {value : Value} (sums : Sums base key num)
    (there : valueFor map entry key = some value)
    (integral : key.aggrFunc ≠ none → ∀ dval, objectToNumber cmd value ≠ some (.float dval)) :
    Sums (fun key => base key + amount cmd map entry key) key (addValue cmd key value num memory).1 := by
  intro additive
  obtain ⟨type, total⟩ := sums additive
  have amount_eq : amount cmd map entry key = match objectToNumber cmd value with
      | some (.int ival) => ival
      | _ => 0 := by
    simp [amount, there]
  have function : ∃ func, key.aggrFunc = some func ∧ (func = .avg ∨ func = .sum) := by
    rcases additive with avg | sum
    · exact ⟨.avg, avg, .inl rfl⟩
    · exact ⟨.sum, sum, .inr rfl⟩
  obtain ⟨func, named, summing⟩ := function
  have integers := integral (by simp [named])
  have sum_eq : ∀ number, num.add func number = num.addSum number := by
    rcases summing with rfl | rfl
    · exact fun _ => rfl
    · exact fun _ => rfl
  unfold StreamProcessor.addValue
  rw [named]
  simp only
  cases number : objectToNumber cmd value with
  | none => simp [amount_eq, number, type, total]
  | some found =>
    cases found with
    | float dval => exact absurd number (integers dval)
    | int ival =>
      simp only [AggregateNum.promote, sum_eq]
      simp [AggregateNum.addSum, type, total, amount_eq, number]

theorem addEntry_sums (entry : Bytes) (keys : List CmdKey) (nums : List AggregateNum) (memory : Memory)
    (integral : ∀ key ∈ keys, key.aggrFunc ≠ none → ∀ dval,
      (valueFor map entry key).bind (objectToNumber cmd) ≠ some (.float dval))
    (sums : List.Forall₂ (Sums base) keys nums) :
    List.Forall₂ (Sums fun key => base key + amount cmd map entry key) keys
        (addEntry cmd map entry keys nums memory).1 ∧ Grows memory (addEntry cmd map entry keys nums memory).2 := by
  induction keys generalizing nums memory with
  | nil =>
    cases sums
    exact ⟨.nil, .refl memory⟩
  | cons key keys ih =>
    cases sums with
    | @cons _ num _ nums here later =>
      have rest := fun nums memory => ih nums memory fun key member => integral key (List.mem_cons_of_mem _ member)
      cases there : valueFor map entry key with
      | none =>
        obtain ⟨summed, grows⟩ := rest nums memory later
        simp only [addEntry, there]
        refine ⟨.cons ?_ summed, grows⟩
        intro additive
        simpa [amount, there] using here additive
      | some value =>
        obtain ⟨summed, grows⟩ := rest nums (addValue cmd key value num memory).2 later
        simp only [addEntry, there]
        refine ⟨.cons (here.addValue there ?_) summed, (addValue_grows key value num).trans grows⟩
        intro function dval
        simpa [there] using integral key (by simp) function dval

theorem addMap_sums (nums : List AggregateNum) (memory : Memory) (record : Record) (integral : Integral cmd record.map)
    (sums : List.Forall₂ (Sums base) cmd.keys nums) :
    List.Forall₂ (Sums fun key => base key + addend cmd key record) cmd.keys (addMap cmd record.map nums memory).1 ∧
      Grows memory (addMap cmd record.map nums memory).2 := by
  have loop : ∀ (entries : Map) (base : CmdKey → BitVec 64) (nums : List AggregateNum) (memory : Memory),
      (∀ entry ∈ entries, entry ∈ record.map) → List.Forall₂ (Sums base) cmd.keys nums →
      ∃ after later,
        entries.foldl (fun state entry => addEntry cmd record.map entry.1 cmd.keys state.1 state.2) (nums, memory) =
          (after, later) ∧
        List.Forall₂ (Sums fun key => base key + (entries.map fun entry => amount cmd record.map entry.1 key).sum)
          cmd.keys after ∧
        Grows memory later := by
    intro entries
    induction entries with
    | nil =>
      intro base nums memory _ sums
      exact ⟨nums, memory, rfl, by simpa using sums, .refl memory⟩
    | cons entry entries ih =>
      intro base nums memory among sums
      obtain ⟨summed, grows⟩ := addEntry_sums entry.1 cmd.keys nums memory
        (fun key member function => integral key member function entry (among entry (by simp))) sums
      obtain ⟨after, later, folded, final, grown⟩ := ih _ _ _
        (fun other member => among other (List.mem_cons_of_mem _ member)) summed
      refine ⟨after, later, folded, ?_, grows.trans grown⟩
      simpa [add_assoc] using final
  obtain ⟨after, later, folded, final, grown⟩ := loop record.map base nums memory (fun _ => id) sums
  have result : addMap cmd record.map nums memory = (after, later) := folded
  rw [result]
  exact ⟨final, grown⟩

theorem removeNums_sums (keys : List CmdKey) (nums prevs : List AggregateNum) (sums : List.Forall₂ (Sums base) keys nums)
    (prevSums : List.Forall₂ (Sums other) keys prevs) :
    List.Forall₂ (Sums fun key => base key - other key) keys (removeNums keys nums prevs) := by
  induction keys generalizing nums prevs with
  | nil =>
    cases sums
    exact .nil
  | cons key keys ih =>
    cases sums with
    | @cons _ num _ nums here later =>
      cases prevSums with
      | @cons _ prev _ prevs there earlier =>
        refine .cons ?_ (ih nums prevs later earlier)
        intro additive
        obtain ⟨type, total⟩ := here additive
        obtain ⟨_, taken⟩ := there additive
        have removed : ∀ func, func = .avg ∨ func = .sum → num.remove func prev = num.removeSum prev := by
          rintro func (rfl | rfl)
          · rfl
          · rfl
        rcases additive with function | function
        · simp [function, removed .avg (.inl rfl), AggregateNum.removeSum, type, total, taken]
        · simp [function, removed .sum (.inr rfl), AggregateNum.removeSum, type, total, taken]

end

/-! Nodes that are the aggregation of a list of records: one node for each group that a
record is in, with the tally of the records of the group. -/

open List

structure Tallied (cmd : Cmd) (records : List Record) (node : Node) : Prop where
  count : node.records = BitVec.ofNat 32 records.length
  sums : List.Forall₂ (Sums fun key => Ledger.total (addend cmd key) records) cmd.keys node.nums

open Classical in
noncomputable def ofGroup (cmd : Cmd) (group : List GroupValue) (records : List Record) : List Record :=
  records.filter fun record => decide (groupOf cmd record.map = some group)

section

variable {cmd : Cmd} {kinds : List Kind} {memory later : Memory} {records first second : List Record} {node : Node}
  {nodes : List Node} {group : List GroupValue}

variable {record : Record}

theorem mem_ofGroup : record ∈ ofGroup cmd group records ↔ record ∈ records ∧ groupOf cmd record.map = some group := by
  simp [ofGroup]

theorem ofGroup_append : ofGroup cmd group (first ++ second) = ofGroup cmd group first ++ ofGroup cmd group second := by
  simp [ofGroup]

theorem ofGroup_eq_nil (absent : ∀ record ∈ records, groupOf cmd record.map ≠ some group) :
    ofGroup cmd group records = [] := by
  rw [eq_nil_iff_forall_not_mem]
  intro record member
  obtain ⟨among, same⟩ := mem_ofGroup.mp member
  exact absent record among same

theorem Tallied.add (tallied : Tallied cmd records node) (record : Record) (integral : Integral cmd record.map)
    (memory : Memory) :
    Tallied cmd (records ++ [record]) { node.count with nums := (addMap cmd record.map node.nums memory).1 } ∧
      Grows memory (addMap cmd record.map node.nums memory).2 := by
  obtain ⟨sums, grows⟩ := addMap_sums node.nums memory record integral tallied.sums
  refine ⟨⟨?_, ?_⟩, grows⟩
  · simp [Node.count, tallied.count, BitVec.ofNat_add]
  · apply sums.imp
    intro key num sums additive
    simpa [Ledger.total] using sums additive

theorem Tallied.remove {prev : Node} (tallied : Tallied cmd (first ++ second) node) (earlier : Tallied cmd first prev) :
    Tallied cmd second (node.remove cmd prev) := by
  refine ⟨?_, ?_⟩
  · unfold Node.remove
    simp only
    rw [tallied.count, earlier.count, length_append, BitVec.ofNat_add, add_sub_cancel_left]
  · apply (removeNums_sums cmd.keys node.nums prev.nums tallied.sums earlier.sums).imp
    intro key num sums additive
    obtain ⟨type, total⟩ := sums additive
    exact ⟨type, total.trans (Ledger.total_append_sub (addend cmd key) first second)⟩

theorem tallied_blank (groupbyNums : List AggregateNum) :
    Tallied cmd [] { groupbyNums, records := 0, nums := cmd.keys.map fun _ => .zero } := by
  refine ⟨rfl, ?_⟩
  rw [forall₂_map_right_iff]
  apply forall₂_same.mpr
  intro key _ _
  exact ⟨rfl, rfl⟩

theorem tallied_create (groupbyNums : List AggregateNum) (record : Record) (integral : Integral cmd record.map)
    (memory : Memory) :
    Tallied cmd [record] { Node.create cmd groupbyNums with
        nums := (addMap cmd record.map (Node.create cmd groupbyNums).nums memory).1 } ∧
      Grows memory (addMap cmd record.map (Node.create cmd groupbyNums).nums memory).2 :=
  (tallied_blank groupbyNums).add record integral memory

structure Counted (cmd : Cmd) (kinds : List Kind) (memory : Memory) (records : List Record) (nodes : List Node) :
    Prop where
  settled : ∀ node ∈ nodes, Settled kinds memory node.groupbyNums
  distinct : (nodes.map (Node.group memory)).Nodup
  present : ∀ node ∈ nodes, ∃ record ∈ records, groupOf cmd record.map = some (node.group memory)
  complete : ∀ record ∈ records, ∃ node ∈ nodes, groupOf cmd record.map = some (node.group memory)
  tallied : ∀ node ∈ nodes, Tallied cmd (ofGroup cmd (node.group memory) records) node

structure Outlives (memory later : Memory) : Prop where
  strings : memory.strings <+: later.strings
  released : ∀ handle ∈ later.released, handle ∈ memory.released ∨ memory.strings.length ≤ handle

theorem Outlives.of_grows (grows : Grows memory later) : Outlives memory later :=
  ⟨grows.strings, fun _ member => .inl (grows.released ▸ member)⟩

theorem Outlives.trans {third : Memory} (left : Outlives memory later) (right : Outlives later third) :
    Outlives memory third := by
  refine ⟨left.strings.trans right.strings, ?_⟩
  intro handle member
  rcases right.released handle member with earlier | fresh
  · exact left.released handle earlier
  · exact .inr (Nat.le_trans left.strings.length_le fresh)

theorem Outlives.destroy (handles : List Handle) (outlives : Outlives memory later)
    (fresh : ∀ handle ∈ handles, memory.strings.length ≤ handle) : Outlives memory (later.destroy handles) := by
  refine ⟨outlives.strings, ?_⟩
  intro handle member
  rcases mem_append.mp member with earlier | new
  · exact outlives.released handle earlier
  · exact .inr (fresh handle new)

theorem Settled.outlives {nums : List AggregateNum} (settled : Settled kinds memory nums)
    (outlives : Outlives memory later) : Settled kinds later nums := by
  apply settled.persist outlives.strings
  intro handle released member
  obtain ⟨num, among, held⟩ := mem_filterMap.mp member
  have bound := settled.kept num among handle held
  exact (outlives.released handle released).resolve_right (Nat.not_le.mpr bound)

theorem Settled.group_outlives (settled : Settled kinds memory node.groupbyNums) (outlives : Outlives memory later) :
    node.group later = node.group memory := settled.values_grows outlives.strings

section

variable (counted : Counted cmd kinds memory records nodes)
include counted

/-- The counts outlive what is added to the memory. -/
theorem Counted.outlives (outlives : Outlives memory later) : Counted cmd kinds later records nodes := by
  have same : ∀ node ∈ nodes, node.group later = node.group memory :=
    fun node member => (counted.settled node member).group_outlives outlives
  refine ⟨fun node member => (counted.settled node member).outlives outlives, ?_, ?_, ?_, ?_⟩
  · rw [map_congr_left same]
    exact counted.distinct
  · intro node member
    rw [same node member]
    exact counted.present node member
  · intro record member
    obtain ⟨node, among, grouped⟩ := counted.complete record member
    exact ⟨node, among, by rwa [same node among]⟩
  · intro node member
    rw [same node member]
    exact counted.tallied node member

theorem Counted.ofGroup_ne_nil (member : node ∈ nodes) : ofGroup cmd (node.group memory) records ≠ [] := by
  obtain ⟨record, among, grouped⟩ := counted.present node member
  exact ne_nil_of_mem (mem_ofGroup.mpr ⟨among, grouped⟩)

theorem Counted.ofGroup_eq_nil (absent : ∀ node ∈ nodes, node.group memory ≠ group) :
    ofGroup cmd group records = [] := by
  apply StreamProcessor.ofGroup_eq_nil
  intro record member same
  obtain ⟨node, among, grouped⟩ := counted.complete record member
  rw [same] at grouped
  exact absent node among (Option.some.inj grouped).symm

end

theorem ofGroup_snoc_self (grouped : groupOf cmd record.map = some group) :
    ofGroup cmd group (records ++ [record]) = ofGroup cmd group records ++ [record] := by
  simp [ofGroup, grouped]

theorem ofGroup_snoc_of_ne {other : List GroupValue} (grouped : groupOf cmd record.map = some other)
    (apart : group ≠ other) : ofGroup cmd group (records ++ [record]) = ofGroup cmd group records := by
  simp [ofGroup, grouped, Ne.symm apart]

theorem Counted.append (counted : Counted cmd kinds memory records nodes)
    (grouped : groupOf cmd record.map = some (node.group memory)) (settled : Settled kinds memory node.groupbyNums)
    (absent : ∀ other ∈ nodes, other.group memory ≠ node.group memory) (tallied : Tallied cmd [record] node) :
    Counted cmd kinds memory (records ++ [record]) (nodes ++ [node]) := by
  refine ⟨?_, ?_, ?_, ?_, ?_⟩
  · intro other member
    rcases mem_append.mp member with before | new
    · exact counted.settled other before
    · obtain rfl := mem_singleton.mp new
      exact settled
  · rw [map_append, map_singleton, nodup_append]
    refine ⟨counted.distinct, by simp, ?_⟩
    intro one member other single
    obtain ⟨earlier, among, rfl⟩ := mem_map.mp member
    rw [mem_singleton.mp single]
    exact absent earlier among
  · intro other member
    rcases mem_append.mp member with before | new
    · obtain ⟨old, among, same⟩ := counted.present other before
      exact ⟨old, mem_append_left _ among, same⟩
    · obtain rfl := mem_singleton.mp new
      exact ⟨record, by simp, grouped⟩
  · intro old member
    rcases mem_append.mp member with before | new
    · obtain ⟨other, among, same⟩ := counted.complete old before
      exact ⟨other, mem_append_left _ among, same⟩
    · obtain rfl := mem_singleton.mp new
      exact ⟨node, by simp, grouped⟩
  · intro other member
    rcases mem_append.mp member with before | new
    · rw [ofGroup_snoc_of_ne grouped (absent other before)]
      exact counted.tallied other before
    · obtain rfl := mem_singleton.mp new
      rw [ofGroup_snoc_self grouped, counted.ofGroup_eq_nil absent]
      exact tallied

variable {α : Type} {value : α} {list : List α} {place : Nat} {after : Node}

theorem split_at (here : list[place]? = some value) :
    ∃ before rest, list = before ++ value :: rest ∧ ∀ other, list.set place other = before ++ other :: rest := by
  induction list generalizing place with
  | nil => cases here
  | cons head tail ih =>
    cases place with
    | zero =>
      cases here
      exact ⟨[], tail, rfl, fun _ => rfl⟩
    | succ place =>
      obtain ⟨before, rest, equal, replaced⟩ := ih here
      refine ⟨head :: before, rest, by rw [equal, cons_append], ?_⟩
      intro other
      rw [set_cons_succ, replaced other, cons_append]

theorem modify_of_getElem? (change : α → α) (here : list[place]? = some value) :
    list.modify place change = list.set place (change value) := by
  apply ext_getElem?
  intro index
  rw [List.getElem?_modify, List.getElem?_set]
  by_cases same : place = index
  · subst same
    obtain ⟨bound, value_eq⟩ := List.getElem?_eq_some_iff.mp here
    simp [bound, value_eq]
  · simp [same]

theorem Counted.mem_set {before rest : List Node} {one : Node}
    (counted : Counted cmd kinds memory records (before ++ node :: rest)) (member : one ∈ before ++ after :: rest) :
    one = after ∨ one ∈ before ++ rest ∧ one.group memory ≠ node.group memory := by
  have distinct := counted.distinct
  rw [map_append, map_cons, nodup_middle, nodup_cons, ← map_append] at distinct
  have split : one = after ∨ one ∈ before ++ rest := by
    simpa [or_left_comm] using member
  rcases split with new | old
  · exact .inl new
  · exact .inr ⟨old, fun equal => distinct.1 (equal ▸ mem_map_of_mem old)⟩

theorem Counted.set (counted : Counted cmd kinds memory records nodes) (here : nodes[place]? = some node)
    (same : after.groupbyNums = node.groupbyNums) (grouped : groupOf cmd record.map = some (node.group memory))
    (tallied : Tallied cmd (ofGroup cmd (node.group memory) records ++ [record]) after) :
    Counted cmd kinds memory (records ++ [record]) (nodes.set place after) := by
  have group : after.group memory = node.group memory := by
    unfold Node.group
    rw [same]
  obtain ⟨before, rest, rfl, replaced⟩ := split_at here
  rw [replaced]
  have distinct := counted.distinct
  rw [map_append, map_cons, nodup_middle, nodup_cons, ← map_append] at distinct
  have other : ∀ other ∈ before ++ after :: rest, other = after ∨ other ∈ before ++ rest ∧
      other.group memory ≠ node.group memory := fun _ => counted.mem_set
  have among : ∀ other ∈ before ++ rest, other ∈ before ++ node :: rest := by
    intro other member
    simpa [or_left_comm] using Or.inr (mem_append.mp member)
  refine ⟨?_, ?_, ?_, ?_, ?_⟩
  · intro one member
    rcases other one member with rfl | ⟨old, _⟩
    · rw [same]
      exact counted.settled node (by simp)
    · exact counted.settled one (among one old)
  · rw [map_append, map_cons, nodup_middle, nodup_cons, ← map_append, group]
    exact distinct
  · intro one member
    rcases other one member with rfl | ⟨old, _⟩
    · exact ⟨record, by simp, by rw [group]; exact grouped⟩
    · obtain ⟨earlier, there, matched⟩ := counted.present one (among one old)
      exact ⟨earlier, mem_append_left _ there, matched⟩
  · intro one member
    have old : ∃ one_node ∈ before ++ node :: rest, groupOf cmd one.map = some (one_node.group memory) := by
      rcases mem_append.mp member with earlier | new
      · exact counted.complete one earlier
      · rw [mem_singleton.mp new]
        exact ⟨node, by simp, grouped⟩
    obtain ⟨one_node, there, matched⟩ := old
    have split : one_node = node ∨ one_node ∈ before ++ rest := by simpa [or_left_comm] using there
    rcases split with rfl | kept
    · exact ⟨after, by simp, by rw [group]; exact matched⟩
    · exact ⟨one_node, by simpa [or_left_comm] using Or.inr (mem_append.mp kept), matched⟩
  · intro one member
    rcases other one member with rfl | ⟨old, apart⟩
    · rw [group, ofGroup_snoc_self grouped]
      exact tallied
    · rw [ofGroup_snoc_of_ne grouped apart]
      exact counted.tallied one (among one old)

end

end FluentBit.StreamProcessor
