import FluentBit.StreamProcessor.Window
import Mathlib.Data.List.Forall2
import Mathlib.Data.List.GetD

/-! The groups of records: what is extracted of a record, when two groups compare equal, and
that a search finds the node of a group as long as no string of it was destroyed. -/

set_option autoImplicit false

namespace FluentBit.StreamProcessor

open List
open Multiline (sdsEq)

theorem strcmp_eq_zero_iff (left right : Bytes) : strcmp left right = 0 ↔ cString left = cString right := by
  induction left generalizing right with
  | nil =>
    cases right with
    | nil => simp [strcmp]
    | cons byte right =>
      by_cases stop : byte = 0
      · simp [strcmp, cString, stop]
      · simp [strcmp, cString, stop]
  | cons first left ih =>
    cases right with
    | nil =>
      by_cases stop : first = 0
      · simp [strcmp, cString, stop]
      · simp [strcmp, cString, stop]
    | cons byte right =>
      by_cases same : first = byte
      · subst same
        by_cases stop : first = 0
        · simp [strcmp, cString, stop]
        · simpa [strcmp, cString, stop] using ih right
      · have apart : cString (first :: left) ≠ cString (byte :: right) := by
          intro equal
          by_cases stop : first = 0
          · by_cases ends : byte = 0
            · exact same (stop.trans ends.symm)
            · simp [cString, stop, ends] at equal
          · by_cases ends : byte = 0
            · simp [cString, stop, ends] at equal
            · simp [cString, stop, ends, same] at equal
        constructor
        · intro zero
          by_cases less : first < byte
          · simp [strcmp, less] at zero
          · by_cases more : byte < first
            · simp [strcmp, less, more] at zero
            · exact absurd (UInt8.le_antisymm (UInt8.not_lt.mp more) (UInt8.not_lt.mp less)) same
        · intro equal
          exact absurd equal apart

inductive Kind where
  | int
  | str

def Kind.Fits : Kind → GroupValue → Prop
  | .int, .int _ => True
  | .str, .str _ => True
  | _, _ => False

section

variable {memory : Memory}
variable {kind : Kind}

theorem type_of_fits {num : AggregateNum} (fits : kind.Fits (num.value memory)) : num.type = match kind with
      | .int => .i64
      | .str => .string := by
  unfold AggregateNum.value at fits
  cases kind with
  | int =>
    split at fits
    next type => exact type
    · cases fits
    · cases fits
    · cases fits
  | str =>
    split at fits
    · cases fits
    · cases fits
    · cases fits
    next type => exact type

theorem compareNum_eq_zero_iff {left right : AggregateNum} (leftFits : kind.Fits (left.value memory))
    (rightFits : kind.Fits (right.value memory)) :
    compareNum memory left right = 0 ↔ left.value memory = right.value memory := by
  have leftType := type_of_fits leftFits
  have rightType := type_of_fits rightFits
  unfold compareNum AggregateNum.value
  cases kind with
  | int =>
    simp only at leftType rightType
    simp only [leftType, rightType, GroupValue.int.injEq]
    unfold compareInt
    constructor
    · intro zero
      apply BitVec.eq_of_toInt_eq
      split at zero
      · cases zero
      · split at zero <;> omega
    · intro equal
      simp [equal]
  | str =>
    simp only at leftType rightType
    simp only [leftType, rightType, GroupValue.str.injEq]
    exact strcmp_eq_zero_iff _ _

def Fits (kinds : List Kind) (group : List GroupValue) : Prop := List.Forall₂ Kind.Fits kinds group

theorem groupbyCompare_eq_zero_iff {kinds : List Kind} {left right : List AggregateNum}
    (leftFits : Fits kinds (left.map (AggregateNum.value memory)))
    (rightFits : Fits kinds (right.map (AggregateNum.value memory))) : groupbyCompare memory left right = 0 ↔
      left.map (AggregateNum.value memory) = right.map (AggregateNum.value memory) := by
  induction kinds generalizing left right with
  | nil =>
    cases left with
    | nil =>
      cases right with
      | nil => simp [groupbyCompare]
      | cons num right => cases rightFits
    | cons num left => cases leftFits
  | cons kind kinds ih =>
    cases left with
    | nil => cases leftFits
    | cons first left =>
      cases right with
      | nil => cases rightFits
      | cons second right =>
        obtain ⟨leftFirst, leftRest⟩ := forall₂_cons.mp leftFits
        obtain ⟨rightFirst, rightRest⟩ := forall₂_cons.mp rightFits
        have here := compareNum_eq_zero_iff leftFirst rightFirst
        have later := ih leftRest rightRest
        unfold groupbyCompare
        by_cases zero : compareNum memory first second = 0
        · rw [if_pos zero, later]
          simp [here.mp zero]
        · rw [if_neg zero]
          constructor
          · intro same
            exact absurd same zero
          · intro same
            exact absurd (here.mpr (List.cons.inj same).1) zero

end

/-! ### Memory -/

structure Grows (first second : Memory) : Prop where
  strings : first.strings <+: second.strings
  released : second.released = first.released

section

variable {first second third memory : Memory} {num : AggregateNum}

theorem Grows.refl (memory : Memory) : Grows memory memory := ⟨prefix_refl _, rfl⟩

theorem Grows.trans (left : Grows first second) (right : Grows second third) : Grows first third :=
  ⟨left.strings.trans right.strings, right.released.trans left.released⟩

theorem Grows.create (text : Bytes) (memory : Memory) : Grows memory (memory.create text).2 :=
  ⟨prefix_append _ _, rfl⟩

theorem Grows.length (grows : Grows first second) : first.strings.length ≤ second.strings.length :=
  grows.strings.length_le

def Kept (memory : Memory) (num : AggregateNum) : Prop := ∀ handle ∈ num.handle, handle < memory.strings.length

theorem Kept.grows (kept : Kept first num) (grows : Grows first second) : Kept second num :=
  fun handle member => Nat.lt_of_lt_of_le (kept handle member) grows.length

theorem value_of_strings (kept : Kept first num) (strings : first.strings <+: second.strings) :
    num.value second = num.value first := by
  unfold AggregateNum.value
  cases type : num.type with
  | i64 => rfl
  | f64 => rfl
  | boolean => rfl
  | string =>
    cases string : num.string with
    | none => rfl
    | some handle =>
      have bound : handle < first.strings.length := kept handle (by simp [AggregateNum.handle, type, string])
      obtain ⟨more, longer⟩ := strings
      have same : second.text handle = first.text handle := by
        unfold Memory.text
        rw [← longer, getD_append _ _ _ _ bound]
      simp [same]

theorem Grows.value (grows : Grows first second) (kept : Kept first num) : num.value second = num.value first :=
  value_of_strings kept grows.strings

end

/-! ### Extraction -/

variable {α β : Type} {left : List α} {right : List β}

theorem map_eq_of_forall₂ {γ : Type} {f : β → γ} {g : α → γ} (same : List.Forall₂ (fun a b => f b = g a) left right) :
    right.map f = left.map g := by
  induction same with
  | nil => rfl
  | cons here _ ih => rw [map_cons, map_cons, here, ih]

theorem exists_of_forall₂ {related : α → β → Prop} (all : List.Forall₂ related left right) {second : β}
    (member : second ∈ right) : ∃ first ∈ left, related first second := by
  induction all with
  | nil => cases member
  | @cons head other _ _ here _ ih =>
    rcases mem_cons.mp member with rfl | later
    · exact ⟨head, mem_cons_self, here⟩
    · obtain ⟨first, among, holds⟩ := ih later
      exact ⟨first, mem_cons_of_mem _ among, holds⟩

section

variable {cmd : Cmd} {map : Map} {start memory : Memory}

def asGroup (cmd : Cmd) (value : Value) : GroupValue :=
  match objectToNumber cmd value, value with
  | some (.int ival), _ => .int ival
  | some (.float dval), _ => .float dval
  | none, .str text => .str (cString text)
  | none, .bool boolean => .int (if boolean then 1 else 0)
  | none, _ => .int 0

def groupValueOf (cmd : Cmd) (map : Map) (key : GbKey) : GroupValue :=
  match keyToValue key.name key.subkeys map with
  | none => .int 0
  | some value => asGroup cmd value

def foundIn (map : Map) (entry : Bytes) (key : GbKey) : Bool :=
  sdsEq key.name entry && (keyToValue key.name key.subkeys map).isSome

def foundCount (cmd : Cmd) (map : Map) : Nat := (map.map fun entry => cmd.gbKeys.countP (foundIn map entry.1)).sum

def groupOf (cmd : Cmd) (map : Map) : Option (List GroupValue) :=
  if foundCount cmd map < cmd.gbKeys.length then none else some (cmd.gbKeys.map (groupValueOf cmd map))

structure Extracted (cmd : Cmd) (map : Map) (start memory : Memory) (seen : List Bytes) (key : GbKey)
    (num : AggregateNum) : Prop where
  kept : Kept memory num
  fresh : ∀ handle ∈ num.handle, start.strings.length ≤ handle
  unseen : seen.any (fun entry => sdsEq key.name entry) = false → num = .zero
  seen : seen.any (fun entry => sdsEq key.name entry) = true → num.value memory = groupValueOf cmd map key

variable {seen : List Bytes} {num : AggregateNum} {key : GbKey} {entry : Bytes}

section

variable (extracted : Extracted cmd map start memory seen key num)
include extracted

theorem Extracted.grows {later : Memory} (grows : Grows memory later) : Extracted cmd map start later seen key num :=
  ⟨extracted.kept.grows grows, extracted.fresh, extracted.unseen,
    fun any => (grows.value extracted.kept).trans (extracted.seen any)⟩

theorem setGroupNum_extracted {value : Value} (older : Grows start memory) (named : sdsEq key.name entry = true)
    (found : keyToValue key.name key.subkeys map = some value) : Grows memory (setGroupNum cmd value num memory).2 ∧
      Extracted cmd map start (setGroupNum cmd value num memory).2 (seen ++ [entry]) key
        (setGroupNum cmd value num memory).1 := by
  have noted : (seen ++ [entry]).any (fun entry => sdsEq key.name entry) = true := by simp [named]
  have unnoted : ∀ {claim : Prop}, (seen ++ [entry]).any (fun entry => sdsEq key.name entry) = false → claim := by
    intro claim any
    rw [noted] at any
    cases any
  unfold setGroupNum
  have expected : groupValueOf cmd map key = asGroup cmd value := by
    unfold groupValueOf
    rw [found]
  split
  next ival number =>
    refine ⟨.refl _, ⟨by simp [Kept, AggregateNum.handle], by simp [AggregateNum.handle], unnoted, ?_⟩⟩
    intro _
    simp [expected, asGroup, number, AggregateNum.value]
  next dval number =>
    refine ⟨.refl _, ⟨by simp [Kept, AggregateNum.handle], by simp [AggregateNum.handle], unnoted, ?_⟩⟩
    intro _
    simp [expected, asGroup, number, AggregateNum.value]
  next text number =>
    refine ⟨.create text memory, ⟨?_, ?_, unnoted, ?_⟩⟩
    · intro handle member
      obtain rfl : memory.strings.length = handle := by
        simpa [AggregateNum.handle, Memory.create] using member
      simp [Memory.create]
    · intro handle member
      obtain rfl : memory.strings.length = handle := by
        simpa [AggregateNum.handle, Memory.create] using member
      exact older.length
    · intro _
      simp [expected, asGroup, number, AggregateNum.value, Memory.create, Memory.text]
  next boolean number =>
    refine ⟨.refl _, ⟨by simp [Kept, AggregateNum.handle], by simp [AggregateNum.handle], unnoted, ?_⟩⟩
    intro _
    simp [expected, asGroup, number, AggregateNum.value]
  next value _ _ notString notBool number =>
    refine ⟨.refl _, ⟨extracted.kept, extracted.fresh, unnoted, ?_⟩⟩
    intro _
    have zero : groupValueOf cmd map key = .int 0 := by
      rw [expected]
      cases value with
      | str text => exact (notString text rfl).elim
      | bool boolean => exact (notBool boolean rfl).elim
      | _ => simp [asGroup, number]
    cases before : seen.any (fun entry => sdsEq key.name entry) with
    | true => exact extracted.seen before
    | false =>
      rw [extracted.unseen before, zero]
      rfl

theorem Extracted.skip (missing : sdsEq key.name entry = true → keyToValue key.name key.subkeys map = none) :
    Extracted cmd map start memory (seen ++ [entry]) key num := by
  cases before : seen.any (fun entry => sdsEq key.name entry) with
  | true =>
    refine ⟨extracted.kept, extracted.fresh, ?_, fun _ => extracted.seen before⟩
    intro unseen
    rw [any_append, before] at unseen
    cases unseen
  | false =>
    refine ⟨extracted.kept, extracted.fresh, fun _ => extracted.unseen before, ?_⟩
    intro any
    have named : sdsEq key.name entry = true := by simpa [before] using any
    have nothing : groupValueOf cmd map key = .int 0 := by
      unfold groupValueOf
      rw [missing named]
    rw [extracted.unseen before, nothing]
    rfl

end

theorem extractEntry_extracted (entry : Bytes) (seen : List Bytes) (keys : List GbKey) (nums : List AggregateNum)
    (found : Nat) (memory : Memory) (older : Grows start memory)
    (extracted : List.Forall₂ (Extracted cmd map start memory seen) keys nums) :
    List.Forall₂ (Extracted cmd map start (extractEntry cmd map entry keys nums (found, memory)).2.2 (seen ++ [entry]))
        keys (extractEntry cmd map entry keys nums (found, memory)).1 ∧
      Grows memory (extractEntry cmd map entry keys nums (found, memory)).2.2 ∧
      (extractEntry cmd map entry keys nums (found, memory)).2.1 = found + keys.countP (foundIn map entry) := by
  induction keys generalizing nums found memory with
  | nil =>
    cases extracted
    exact ⟨.nil, .refl _, rfl⟩
  | cons key keys ih =>
    cases extracted with
    | @cons _ num _ nums here later =>
      by_cases relevant : foundIn map entry key = true
      · obtain ⟨named, there⟩ : sdsEq key.name entry = true ∧ (keyToValue key.name key.subkeys map).isSome := by
          simpa [foundIn] using relevant
        obtain ⟨value, value_eq⟩ := Option.isSome_iff_exists.mp there
        obtain ⟨grows, noted⟩ := setGroupNum_extracted here older named value_eq
        obtain ⟨rest, further, count⟩ := ih nums (found + 1) (setGroupNum cmd value num memory).2
          (older.trans grows) (later.imp fun _ _ extracted => extracted.grows grows)
        simp only [extractEntry, named, if_true, value_eq]
        refine ⟨.cons (noted.grows further) rest, grows.trans further, ?_⟩
        rw [count, countP_cons_of_pos relevant]
        omega
      · have missing : sdsEq key.name entry = true → keyToValue key.name key.subkeys map = none := by
          intro named
          simpa [foundIn, named] using relevant
        have nothing : (if sdsEq key.name entry then keyToValue key.name key.subkeys map else none) = none := by
          by_cases named : sdsEq key.name entry = true
          · rw [if_pos named, missing named]
          · rw [if_neg named]
        obtain ⟨rest, further, count⟩ := ih nums found memory older later
        simp only [extractEntry, nothing]
        refine ⟨.cons ((here.skip missing).grows further) rest, further, ?_⟩
        rw [count, countP_cons_of_neg relevant]

structure Extraction (cmd : Cmd) (map : Map) (start : Memory) (nums : List AggregateNum) (found : Nat)
    (memory : Memory) : Prop where
  grows : Grows start memory
  values : nums.map (AggregateNum.value memory) = cmd.gbKeys.map (groupValueOf cmd map)
  count : found = foundCount cmd map
  kept : ∀ num ∈ nums, Kept memory num
  fresh : ∀ handle ∈ nums.filterMap AggregateNum.handle, start.strings.length ≤ handle

theorem lookup_none {name : Bytes} (absent : (map.map Prod.fst).any (fun entry => sdsEq name entry) = false)
    (subkeys : List Bytes) : keyToValue name subkeys map = none := by
  have missing : lookup name map = none := by
    unfold lookup
    rw [Option.map_eq_none_iff, List.find?_eq_none]
    intro entry member
    rw [any_eq_false] at absent
    exact absent entry.1 (mem_map_of_mem member)
  unfold keyToValue
  rw [missing]

theorem extracted_zero :
    List.Forall₂ (Extracted cmd map start start []) cmd.gbKeys (cmd.gbKeys.map fun _ => .zero) := by
  rw [forall₂_map_right_iff]
  apply forall₂_same.mpr
  intro key _
  exact ⟨by simp [Kept, AggregateNum.handle, AggregateNum.zero],
    by simp [AggregateNum.handle, AggregateNum.zero], fun _ => rfl, by simp⟩

/-- Each key of the group gets the value that the record has for it. -/
theorem extractGroup_extraction (cmd : Cmd) (map : Map) (start : Memory) :
    Extraction cmd map start (extractGroup cmd map start).1 (extractGroup cmd map start).2.1
      (extractGroup cmd map start).2.2 := by
  -- The loop over the entries, from any of its states on.
  have loop : ∀ (entries : Map) (seen : List Bytes) (nums : List AggregateNum) (found : Nat) (memory : Memory),
      Grows start memory → List.Forall₂ (Extracted cmd map start memory seen) cmd.gbKeys nums →
      ∃ after count later,
        entries.foldl (fun state entry => extractEntry cmd map entry.1 cmd.gbKeys state.1 state.2)
          (nums, (found, memory)) = (after, count, later) ∧
        Grows start later ∧
        List.Forall₂ (Extracted cmd map start later (seen ++ entries.map Prod.fst)) cmd.gbKeys after ∧
        count = found + (entries.map fun entry => cmd.gbKeys.countP (foundIn map entry.1)).sum := by
    intro entries
    induction entries with
    | nil =>
      intro seen nums found memory grows extracted
      exact ⟨nums, found, memory, rfl, grows, by simpa using extracted, rfl⟩
    | cons entry entries ih =>
      intro seen nums found memory grows extracted
      obtain ⟨rest, further, counted⟩ := extractEntry_extracted entry.1 seen cmd.gbKeys nums found memory grows
        extracted
      obtain ⟨after, count, later, folded, grown, final, total⟩ := ih (seen ++ [entry.1]) _ _ _
        (grows.trans further) rest
      refine ⟨after, count, later, folded, grown, by simpa using final, ?_⟩
      rw [total, counted, map_cons, sum_cons]
      omega
  obtain ⟨after, count, later, folded, grown, final, total⟩ := loop map [] _ 0 start (.refl start)
    extracted_zero
  have result : extractGroup cmd map start = (after, count, later) := folded
  rw [result]
  refine ⟨grown, ?_, by simpa [foundCount] using total, ?_, ?_⟩
  · have valued : List.Forall₂ (fun key num => num.value later = groupValueOf cmd map key) cmd.gbKeys after := by
      apply final.imp
      intro key num extracted
      cases seen : (map.map Prod.fst).any (fun entry => sdsEq key.name entry) with
      | true => exact extracted.seen seen
      | false =>
        have nothing : groupValueOf cmd map key = .int 0 := by
          unfold groupValueOf
          rw [lookup_none seen]
        rw [extracted.unseen seen, nothing]
        rfl
    exact map_eq_of_forall₂ valued
  · intro num member
    obtain ⟨key, _, extracted⟩ := exists_of_forall₂ final member
    exact extracted.kept
  · intro handle member
    obtain ⟨num, among, held⟩ := mem_filterMap.mp member
    obtain ⟨key, _, extracted⟩ := exists_of_forall₂ final among
    exact extracted.fresh handle held

end

section

variable {kinds : List Kind} {memory later : Memory} {nodes : List Node} {nums : List AggregateNum}

structure Settled (kinds : List Kind) (memory : Memory) (nums : List AggregateNum) : Prop where
  fits : Fits kinds (nums.map (AggregateNum.value memory))
  kept : ∀ num ∈ nums, Kept memory num
  alive : ∀ handle ∈ nums.filterMap AggregateNum.handle, handle ∉ memory.released

section

variable (settled : Settled kinds memory nums)
include settled

theorem Settled.dangling : memory.dangling nums = false := by
  unfold Memory.dangling
  rw [any_eq_false]
  intro handle member
  simpa using settled.alive handle member

theorem Settled.values_grows (strings : memory.strings <+: later.strings) :
    nums.map (AggregateNum.value later) = nums.map (AggregateNum.value memory) :=
  map_congr_left fun num member => value_of_strings (settled.kept num member) strings

theorem Settled.persist (strings : memory.strings <+: later.strings)
    (apart : ∀ handle ∈ later.released, handle ∈ nums.filterMap AggregateNum.handle → handle ∈ memory.released) :
    Settled kinds later nums := by
  refine ⟨?_, ?_, ?_⟩
  · rw [settled.values_grows strings]
    exact settled.fits
  · intro num member handle held
    exact Nat.lt_of_lt_of_le (settled.kept num member handle held) strings.length_le
  · intro handle member released
    exact settled.alive handle member (apart handle released member)

end

theorem find_of_alive (nodesAlive : ∀ node ∈ nodes, memory.dangling node.groupbyNums = false)
    (alive : memory.dangling nums = false) :
    find memory nodes nums = some (nodes.findIdx? fun node => groupbyCompare memory nums node.groupbyNums = 0) := by
  unfold find
  rw [if_neg]
  intro any
  obtain ⟨node, member, dangling⟩ := any_eq_true.mp any
  rw [alive, nodesAlive node member] at dangling
  cases dangling

section

variable (nodesSettled : ∀ node ∈ nodes, Settled kinds memory node.groupbyNums) (settled : Settled kinds memory nums)
include nodesSettled settled

theorem find_eq :
    find memory nodes nums = some (nodes.findIdx? fun node => groupbyCompare memory nums node.groupbyNums = 0) :=
  find_of_alive (fun node member => (nodesSettled node member).dangling) settled.dangling

/-- A node is found if and only if one has the values of the group. -/
theorem find_cases :
    (find memory nodes nums = some none ∧ ∀ node ∈ nodes, node.group memory ≠ nums.map (AggregateNum.value memory)) ∨
      ∃ place node, find memory nodes nums = some (some place) ∧ nodes[place]? = some node ∧
        node.group memory = nums.map (AggregateNum.value memory) := by
  have compared : ∀ node ∈ nodes, groupbyCompare memory nums node.groupbyNums = 0 ↔
      node.group memory = nums.map (AggregateNum.value memory) := by
    intro node member
    rw [groupbyCompare_eq_zero_iff settled.fits (nodesSettled node member).fits]
    exact eq_comm
  rw [find_eq nodesSettled settled]
  cases found : nodes.findIdx? fun node => decide (groupbyCompare memory nums node.groupbyNums = 0) with
  | none =>
    refine .inl ⟨rfl, ?_⟩
    intro node member same
    have none := List.findIdx?_eq_none_iff.mp found node member
    rw [decide_eq_false_iff_not] at none
    exact none ((compared node member).mpr same)
  | some place =>
    obtain ⟨bound, holds, _⟩ := List.findIdx?_eq_some_iff_getElem.mp found
    rw [decide_eq_true_eq] at holds
    have member : nodes[place] ∈ nodes := getElem_mem bound
    exact .inr ⟨place, nodes[place], rfl, List.getElem?_eq_getElem bound, (compared _ member).mp holds⟩

end

end

end FluentBit.StreamProcessor
