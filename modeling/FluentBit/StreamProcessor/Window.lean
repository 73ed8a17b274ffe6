import FluentBit.StreamProcessor.Aggregate

/-! A task with a window, after `src/stream_processor/flb_sp.c` and `flb_sp_window.c`:
records go to the aggregation node of their group, a hop timer closes a slot, and a
window timer reports the window and takes the oldest slot off it.

A search of a tree takes the first node of its list that compares equal. A search that may
read a destroyed string has no result, and nothing is said about what follows. -/

set_option autoImplicit false

namespace FluentBit.StreamProcessor

open Multiline (sdsEq)

structure Node where
  groupbyNums : List AggregateNum
  records : BitVec 32
  nums : List AggregateNum

def Node.handles (node : Node) : List Handle :=
  node.nums.filterMap AggregateNum.handle ++ node.groupbyNums.filterMap AggregateNum.handle

def Node.group (memory : Memory) (node : Node) : List GroupValue :=
  node.groupbyNums.map (AggregateNum.value memory)

structure Slot where
  nodes : List Node
  records : BitVec 32

inductive Packed where
  | int (i64 : BitVec 64)
  | float (f32 : Float32)
  | str (text : Bytes)
  | bool (boolean : Bool)

/-- A row of `package_results`, with the group it is for. -/
structure Row where
  group : List GroupValue
  values : List (Option Packed)

/-- `struct flb_sp_task` with its window. `reports` records what was packaged. -/
structure Task where
  nodes : List Node
  records : BitVec 32
  slots : List Slot
  memory : Memory
  reports : List (List Row)
  faulted : Bool
  destroyed : Bool

def Task.initial : Task :=
  { nodes := [], records := 0, slots := [], memory := { strings := [], released := [] }, reports := []
    faulted := false, destroyed := false }

/-- `rb_tree_find`: the place of the node, if any, unless a destroyed string may be read. -/
def find (memory : Memory) (nodes : List Node) (group : List AggregateNum) : Option (Option Nat) :=
  if nodes.any fun node => memory.dangling group || memory.dangling node.groupbyNums then none
  else some (nodes.findIdx? fun node => groupbyCompare memory group node.groupbyNums = 0)

section

variable (cmd : Cmd)

/-! ### Records -/

def setGroupNum (value : Value) (num : AggregateNum) (memory : Memory) : AggregateNum × Memory :=
  match objectToNumber cmd value, value with
  | some (.int ival), _ => ({ num with type := .i64, i64 := ival }, memory)
  | some (.float dval), _ => ({ num with type := .f64, f64 := dval }, memory)
  | none, .str text =>
    let created := memory.create text
    ({ num with type := .string, string := some created.1 }, created.2)
  | none, .bool boolean => ({ num with type := .i64, i64 := if boolean then 1 else 0 }, memory)
  | none, _ => (num, memory)

def extractEntry (map : Map) (entry : Bytes) :
    List GbKey → List AggregateNum → Nat × Memory → List AggregateNum × (Nat × Memory)
  | key :: keys, num :: nums, (found, memory) =>
    match if sdsEq key.name entry then keyToValue key.name key.subkeys map else none with
    | none =>
      let rest := extractEntry map entry keys nums (found, memory)
      (num :: rest.1, rest.2)
    | some value =>
      let noted := setGroupNum cmd value num memory
      let rest := extractEntry map entry keys nums (found + 1, noted.2)
      (noted.1 :: rest.1, rest.2)
  | _, nums, state => (nums, state)

def extractGroup (map : Map) (memory : Memory) : List AggregateNum × (Nat × Memory) :=
  map.foldl (fun (nums, state) entry => extractEntry cmd map entry.1 cmd.gbKeys nums state)
    (cmd.gbKeys.map fun _ => AggregateNum.zero, (0, memory))

def Node.create (groupbyNums : List AggregateNum) : Node :=
  { groupbyNums, records := 1, nums := cmd.keys.map fun _ => .zero }

def Node.count (node : Node) : Node := { node with records := node.records + 1 }

/-- `sp_process_aggregate_data`: the place of the node the record goes to. -/
def processAggregateData (map : Map) (task : Task) : Option Nat × Task :=
  if cmd.gbKeys = [] then
    match task.nodes with
    | [] => (some 0, { task with nodes := [.create cmd []] })
    | node :: rest => (some 0, { task with nodes := node.count :: rest })
  else
    let (nums, found, memory) := extractGroup cmd map task.memory
    if found < cmd.gbKeys.length then
      (none, { task with memory := memory.destroy (nums.filterMap AggregateNum.handle) })
    else
      match find memory task.nodes nums with
      | none => (none, { task with memory, faulted := true })
      | some (some place) =>
        (some place,
          { task with
            nodes := task.nodes.modify place Node.count
            memory := memory.destroy (nums.filterMap AggregateNum.handle) })
      | some none => (some task.nodes.length, { task with nodes := task.nodes ++ [.create cmd nums], memory })

def setNum (value : Value) (num : AggregateNum) (memory : Memory) : AggregateNum × Memory :=
  match value with
  | .bool boolean => ({ num with type := .boolean, boolean }, memory)
  | .int i64 => ({ num with type := .i64, i64 }, memory)
  | .float f64 => ({ num with type := .f64, f64 }, memory)
  | .str text =>
    match num.string with
    | some _ => ({ num with type := .string }, memory)
    | none =>
      let created := memory.create text
      ({ num with type := .string, string := some created.1 }, created.2)
  | _ => (num, memory)

def addValue (key : CmdKey) (value : Value) (num : AggregateNum) (memory : Memory) : AggregateNum × Memory :=
  match key.aggrFunc with
  | none => setNum value num memory
  | some func =>
    match objectToNumber cmd value with
    | none => (num, memory)
    | some number => ((num.promote number).add func number, memory)

def valueFor (map : Map) (entry : Bytes) (key : CmdKey) : Option Value :=
  key.name.bind fun name => if sdsEq name entry then keyToValue name key.subkeys map else none

def addEntry (map : Map) (entry : Bytes) : List CmdKey → List AggregateNum → Memory → List AggregateNum × Memory
  | key :: keys, num :: nums, memory =>
    match valueFor map entry key with
    | none =>
      let rest := addEntry map entry keys nums memory
      (num :: rest.1, rest.2)
    | some value =>
      let added := addValue cmd key value num memory
      let rest := addEntry map entry keys nums added.2
      (added.1 :: rest.1, rest.2)
  | _, nums, memory => (nums, memory)

def addMap (map : Map) (nums : List AggregateNum) (memory : Memory) : List AggregateNum × Memory :=
  map.foldl (fun (nums, memory) entry => addEntry cmd map entry.1 cmd.keys nums memory) (nums, memory)

def processRecord (task : Task) (record : Record) : Task :=
  if task.faulted ∨ ¬ (cmd.condition.all fun condition => condition record) then task
  else
    match processAggregateData cmd record.map task with
    | (none, task) => task
    | (some place, task) =>
      match task.nodes[place]? with
      | none => task
      | some node =>
        let added := addMap cmd record.map node.nums task.memory
        { task with
          records := task.records + 1
          nodes := task.nodes.set place { node with nums := added.1 }
          memory := added.2 }

def processDataAggr (records : List Record) (task : Task) : Task := records.foldl (processRecord cmd) task

def removeNums : List CmdKey → List AggregateNum → List AggregateNum → List AggregateNum
  | key :: keys, num :: nums, prev :: prevs =>
    (match key.aggrFunc with
      | none => num
      | some func => num.remove func prev) :: removeNums keys nums prevs
  | _, nums, _ => nums

def Node.remove (node prev : Node) : Node :=
  { node with records := node.records - prev.records, nums := removeNums cmd.keys node.nums prev.nums }

def sinceSlots (memory : Memory) (group : List AggregateNum) : List Slot → Node → Option Node
  | [], node => some node
  | slot :: slots, node =>
    match find memory slot.nodes group with
    | none => none
    | some place =>
      match place.bind fun place => slot.nodes[place]? with
      | none => sinceSlots memory group slots node
      | some prev => sinceSlots memory group slots (node.remove cmd prev)

def slotNodes (memory : Memory) (slots : List Slot) : List Node → List Node → Option (List Node)
  | [], made => some made
  | node :: nodes, made =>
    match sinceSlots cmd memory node.groupbyNums slots node with
    | none => none
    | some part =>
      if 0 < part.records.toInt then
        match find memory made node.groupbyNums with
        | none => none
        | some _ => slotNodes memory slots nodes (made ++ [part])
      else slotNodes memory slots nodes made

def processHoppingSlot (task : Task) : Task :=
  match slotNodes cmd task.memory task.slots task.nodes [] with
  | none => { task with faulted := true }
  | some nodes =>
    let records := task.slots.foldl (fun records slot => records - slot.records) task.records
    { task with slots := task.slots ++ [{ nodes, records }] }

def pruneNodes (slot : Slot) : List Node → Memory → Option (List Node × Memory)
  | [], memory => some ([], memory)
  | node :: nodes, memory =>
    match find memory slot.nodes node.groupbyNums with
    | none => none
    | some place =>
      match place.bind fun place => slot.nodes[place]? with
      | none => (pruneNodes slot nodes memory).map fun rest => (node :: rest.1, rest.2)
      | some prev =>
        if prev.records = node.records then pruneNodes slot nodes (memory.destroy node.handles)
        else (pruneNodes slot nodes memory).map fun rest => (node.remove cmd prev :: rest.1, rest.2)

def windowPrune (task : Task) : Task :=
  match cmd.window with
  | .default | .tumbling =>
    if 0 < task.records.toInt then
      { task with
        nodes := [], records := 0
        memory := task.memory.destroy (task.nodes.flatMap Node.handles) }
    else task
  | .hopping =>
    match task.slots with
    | [] => task
    | slot :: slots =>
      match pruneNodes cmd slot task.nodes task.memory with
      | none => { task with faulted := true }
      | some (nodes, memory) =>
        { task with
          nodes, slots
          records := task.records - slot.records
          memory := memory.destroy (slot.nodes.flatMap Node.handles) }

/-! ### Results -/

def packNum (memory : Memory) (num : AggregateNum) : Packed :=
  match num.type with
  | .i64 => .int num.i64
  | .f64 => .float num.f64.toFloat32
  | .string => .str ((num.string.map memory.text).getD [])
  | .boolean => .bool num.boolean

/-- `aggregate_func_calc` -/
def aggregateCalc (func : AggrFunc) (node : Node) (num : AggregateNum) : Option Packed :=
  match func, num.type with
  | .avg, .i64 => some (.float (toDouble num.i64 / Float.ofInt node.records.toInt).toFloat32)
  | .avg, .f64 => some (.float (num.f64 / Float.ofInt node.records.toInt).toFloat32)
  | .avg, _ => some (.float (0.0 : Float).toFloat32)
  | .count, _ => some (.int (node.records.signExtend 64))
  | _, .i64 => some (.int num.i64)
  | _, .f64 => some (.float num.f64.toFloat32)
  | _, _ => none

def packKey (memory : Memory) (node : Node) (key : CmdKey) (num : AggregateNum) : Option Packed :=
  match key.aggrFunc with
  | some func => aggregateCalc func node num
  | none => some (packNum memory ((key.gbKey.bind fun id => node.groupbyNums[id]?).getD num))

def row (memory : Memory) (node : Node) : Row :=
  { group := node.group memory, values := List.zipWith (packKey memory node) cmd.keys node.nums }

def packageResults (task : Task) : Task :=
  if task.nodes.any fun node => task.memory.dangling node.groupbyNums then { task with faulted := true }
  else { task with reports := task.reports ++ [task.nodes.map (row cmd task.memory)] }

/-- The window timer of `flb_sp_fd_event`. -/
def windowTimer (task : Task) : Task :=
  let packaged := if 0 < task.records.toInt then packageResults cmd task else task
  if packaged.faulted then packaged else windowPrune cmd packaged

/-- `flb_sp_do`, for the records of one call. -/
def batch (records : List Record) (task : Task) : Task :=
  let processed := processDataAggr cmd records task
  if processed.faulted ∨ cmd.window ≠ .default then processed
  else
    let packaged := if processed.records = 0 then processed else packageResults cmd processed
    if packaged.faulted then packaged else windowPrune cmd packaged

def taskDestroy (task : Task) : Task :=
  { task with
    nodes := [], slots := [], destroyed := true
    memory := task.memory.destroy (task.nodes.flatMap Node.handles ++
      task.slots.flatMap fun slot => slot.nodes.flatMap Node.handles) }

end

inductive Event where
  | batch (records : List Record)
  | hopTimer
  | windowTimer
  | destroy

def step (cmd : Cmd) (event : Event) (task : Task) : Task :=
  if task.faulted ∨ task.destroyed then task
  else
    match event with
    | .batch records => batch cmd records task
    | .hopTimer => if cmd.window = .hopping then processHoppingSlot cmd task else task
    | .windowTimer => if cmd.window = .default then task else windowTimer cmd task
    | .destroy => taskDestroy task

end FluentBit.StreamProcessor
