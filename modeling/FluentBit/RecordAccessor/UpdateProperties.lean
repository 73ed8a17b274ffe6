import FluentBit.Foundation.PackerProperties
import FluentBit.Foundation.PathUpdates
import FluentBit.RecordAccessor.LookupProperties
import FluentBit.RecordAccessor.Update

/-! Updates of a record against changes at the end of a path. The bytes are those of an object, and
this object is the record with the change, but for a key that is given for an item of an array and
for a value that is appended to an array under an index that is not its length. -/

set_option autoImplicit false

namespace FluentBit.RecordAccessor

open List Nat Option
open Msgpack

theorem packEntries_entry (entries : List (Object × Object)) : packEntries entries = entries.flatMap packEntry :=
  packEntries_eq entries

section

variable {α : Type} {one : Nat → α → Int → Packed} {plain : α → Bytes}

theorem packLoop_plain {members : List α} {i : Nat} {matched : Int}
    (others : ∀ j member matched, i ≤ j → one j member matched = .ok (plain member, matched)) :
    packLoop one i members matched = .ok (members.flatMap plain, matched) := by
  induction members generalizing i with
  | nil => rfl
  | cons member members ih =>
    have later := @ih (i + 1) fun j member matched after => others j member matched (le_of_succ_le after)
    simp [packLoop, others i member matched (Nat.le_refl i), later]

theorem packLoop_set {members : List α} {i position : Nat} {member : α} {matched next : Int} {result : Except Failure α}
    (there : members[position]? = some member)
    (others : ∀ j member matched, j ≠ i + position → one j member matched = .ok (plain member, matched))
    (here : one (i + position) member matched = result.map fun new => (plain new, next)) :
    packLoop one i members matched = result.map fun new => ((members.set position new).flatMap plain, next) := by
  induction members generalizing i position with
  | nil => cases there
  | cons first members ih =>
    cases position with
    | zero =>
      cases there
      have later := @packLoop_plain α one plain members (i + 1) next fun j member matched after =>
        others j member matched (by omega)
      cases result with
      | error failure => simp [packLoop, Except.map] at here ⊢; simp [here]
      | ok new => simp [packLoop, Except.map] at here ⊢; simp [here, later]
    | succ position =>
      have shift : i + 1 + position = i + (position + 1) := by omega
      have later := @ih (i + 1) position there (by rw [shift]; exact others) (by rw [shift]; exact here)
      have first := others i first matched (by omega)
      cases result with
      | error failure | ok new => simp [packLoop, first, later, Except.map]

end

/-! ### The objects that are packed -/

def Subentry.visit (inner : Object → Except Failure Object) : Subentry → Object → Except Failure Object
  | .arrayId id, .array items =>
    if id.val = intMax then .error .refused
    else
      match items[id.val]? with
      | none => .error .refused
      | some item => (inner item).map fun new => .array (items.set id.val new)
  | .str name, .map entries =>
    match keyEntry name.text (.map entries) with
    | none => .error .refused
    | some (i, key, value) => (inner value).map fun new => .map (entries.set i (key, new))
  | _, _ => .error .refused

def descend (leaf : Subentry → Object → Except Failure Object) : List Subentry → Object → Except Failure Object
  | [], _ => .error .crash
  | [last], obj => leaf last obj
  | entry :: next :: later, obj => entry.visit (descend leaf (next :: later)) obj

def updateLeaf (inKey inVal : Option Object) : Subentry → Object → Except Failure Object
  | .arrayId id, .array items =>
    if id.val = intMax then .error .refused
    else
      match items[id.val]?, inVal with
      | none, _ => .error .refused
      | some _, none => .error .crash
      | some _, some value => .ok (.array (items.set id.val value))
  | .str name, .map entries =>
    match keyEntry name.text (.map entries) with
    | none => .error .refused
    | some (i, key, value) => .ok (.map (entries.set i (inKey.getD key, inVal.getD value)))
  | _, _ => .error .refused

theorem pack_array (items : List Object) : pack (.array items) = packArray items.length ++ items.flatMap pack := by
  rw [pack, packItems_eq]

theorem pack_map (entries : List (Object × Object)) :
    pack (.map entries) = packMap entries.length ++ entries.flatMap packEntry := by
  rw [pack, packEntries_entry]

theorem packed_set {α : Type} {plain : α → Bytes} {whole : List α → Object} {head : Nat → Bytes}
    (wholePacked : ∀ members, pack (whole members) = head members.length ++ members.flatMap plain)
    {members : List α} {position : Nat} {member : α} {there : α → Int → Packed} {matched next : Int}
    {result : Except Failure α} (listed : members[position]? = some member)
    (here : there member matched = result.map fun new => (plain new, next)) : behindHead (head members.length) (packLoop
        (fun i member matched => if i ≠ position then .ok (plain member, matched) else there member matched) 0 members matched) =
      (result.map fun new => whole (members.set position new)).map fun new => (pack new, next) := by
  rw [@packLoop_set α _ plain members 0 position member matched next result listed
    (fun j member matched other => if_pos (by simpa using other)) (by simpa using here)]
  cases result with
  | error failure => rfl
  | ok new => simp [Except.map, behindHead, wholePacked]

variable {entries : List (Object × Object)} {inner : Object → Except Failure Object} {id : Fin (2 ^ 31)} {matched next : Int}
variable {ckey : Bytes} {pair : KvPair}

theorem keyEntry_of_id {i : Nat} (found : raKeyValId ckey (.map entries) = some i) :
    ∃ entry, entries[i]? = some entry ∧ keyEntry ckey (.map entries) = some (i, entry) := by
  have inside : i < entries.length := (lastBelow_eq_some_iff.mp found).1
  exact ⟨entries.get ⟨i, inside⟩, by simp, by simp [keyEntry, found]⟩

theorem keyEntry_of_no_id (missing : raKeyValId ckey (.map entries) = none) : keyEntry ckey (.map entries) = none := by
  simp [keyEntry, missing]

variable {items : List Object}

theorem packed_visit_array {there : Object → Int → Packed}
    (here : ∀ item, there item matched = (inner item).map fun new => (pack new, next)) :
    (if id.val = intMax ∨ items.length < id.val + 1 then .error .refused
      else behindHead (packArray items.length) (packLoop
        (fun i item matched => if i ≠ id.val then .ok (pack item, matched) else there item matched) 0 items matched)) =
      ((Subentry.arrayId id).visit inner (.array items)).map fun new => (pack new, next) := by
  by_cases largest : id.val = intMax
  · simp [Subentry.visit, largest, Except.map]
  cases listed : items[id.val]? with
  | none =>
    have outside : items.length < id.val + 1 := lt_succ_of_le (List.getElem?_eq_none_iff.mp listed)
    simp [Subentry.visit, largest, listed, outside, Except.map]
  | some item =>
    have inside : ¬ items.length < id.val + 1 := by
      have := (List.getElem?_eq_some_iff.mp listed).1
      omega
    rw [if_neg (by simp [largest, inside]), packed_set pack_array listed (here item)]
    simp [Subentry.visit, largest, listed, ↓reduceIte]

def changeEntry (change : Object × Object → Except Failure (Object × Object)) (ckey : Bytes)
    (entries : List (Object × Object)) : Except Failure Object :=
  match keyEntry ckey (.map entries) with
  | none => .error .refused
  | some (i, entry) => (change entry).map fun new => .map (entries.set i new)

theorem packed_map {ckey : Bytes} {there : Object × Object → Int → Packed}
    {change : Object × Object → Except Failure (Object × Object)}
    (here : ∀ entry, there entry matched = (change entry).map fun new => (packEntry new, next)) :
    (match raKeyValId ckey (.map entries) with
      | none => .error .refused
      | some id => behindHead (packMap entries.length) (packLoop (fun i entry matched =>
          if i ≠ id then .ok (packEntry entry, matched) else there entry matched) 0 entries matched) : Packed) =
      (changeEntry change ckey entries).map fun new => (pack new, next) := by
  cases found : raKeyValId ckey (.map entries) with
  | none => simp [changeEntry, keyEntry_of_no_id found, Except.map]
  | some i =>
    obtain ⟨entry, listed, present⟩ := keyEntry_of_id found
    simp only [changeEntry, present]
    exact packed_set pack_map listed (here entry)

theorem packed_visit_map {name : Name} {there : Object × Object → Int → Packed}
    (here : ∀ entry, there entry matched = behindHead (pack entry.1) ((inner entry.2).map fun new => (pack new, next))) :
    (match raKeyValId name.text (.map entries) with
      | none => .error .refused
      | some id => behindHead (packMap entries.length) (packLoop (fun i entry matched =>
          if i ≠ id then .ok (packEntry entry, matched) else there entry matched) 0 entries matched) : Packed) =
      ((Subentry.str name).visit inner (.map entries)).map fun new => (pack new, next) := by
  refine (@packed_map entries matched next name.text there
    (fun entry => (inner entry.2).map fun new => (entry.1, new)) ?_).trans ?_
  · intro entry
    rw [here]
    cases inner entry.2 <;> rfl
  · simp only [changeEntry, Subentry.visit]
    cases keyEntry name.text (.map entries) with
    | none => rfl
    | some found =>
      obtain ⟨i, key, value⟩ := found
      cases result : inner value <;> simp [result, Except.map]

variable {inKey inVal : Option Object} {subkeys : List Subentry}

theorem updateLeaf_array : updateLeaf inKey inVal (.arrayId id) (.array items) =
      (Subentry.arrayId id).visit (fun _ => inVal.elim (.error .crash) .ok) (.array items) := by
  simp only [updateLeaf, Subentry.visit]
  cases items[id.val]? <;> cases inVal <;> rfl

theorem updateLeaf_map (name : Name) : updateLeaf inKey inVal (.str name) (.map entries) =
      changeEntry (fun entry => .ok (inKey.getD entry.1, inVal.getD entry.2)) name.text entries := by
  simp only [updateLeaf, changeEntry]
  cases keyEntry name.text (.map entries) <;> rfl

theorem updateSubkey_eq {levels matched : Int} (obj : Object) (more : subkeys ≠ [])
    (inStep : levels = matched + subkeys.length) : updateSubkey levels inKey inVal subkeys obj matched =
      (descend (updateLeaf inKey inVal) subkeys obj).map fun new => (pack new, levels) := by
  induction subkeys generalizing obj matched with
  | nil => exact absurd rfl more
  | cons entry later ih =>
    have onward : later ≠ [] → levels ≠ matched + 1 ∧ levels = matched + 1 + later.length := by
      intro some
      have positive := length_pos_of_ne_nil some
      rw [length_cons] at inStep
      omega
    cases entry with
    | arrayId id =>
      cases obj with
      | array items =>
        cases later with
        | nil =>
          have last : levels = matched + 1 := inStep
          rw [descend, updateLeaf_array]
          apply packed_visit_array
          intro item
          cases inVal <;> simp [last, packPointer, Except.map]
        | cons next later =>
          obtain ⟨notLast, onward⟩ := onward (by simp)
          apply packed_visit_array
          intro item
          rw [if_neg notLast]
          exact ih item (by simp) onward
      | _ => cases later <;> rfl
    | str name =>
      cases obj with
      | map entries =>
        cases later with
        | nil =>
          have last : levels = matched + 1 := inStep
          rw [descend, updateLeaf_map]
          apply packed_map
          intro entry
          simp [last, Except.map]
        | cons next later =>
          obtain ⟨notLast, onward⟩ := onward (by simp)
          apply packed_visit_map
          intro entry
          rw [if_neg notLast, ih entry.2 (by simp) onward]
      | _ => cases later <;> rfl

def appendLeaf (inVal : Object) : Subentry → Object → Except Failure Object
  | .arrayId _, .array items => .ok (.array (items ++ [inVal]))
  | .str name, .map entries => .ok (.map (entries ++ [(.str name.text, inVal)]))
  | _, _ => .error .refused

theorem pack_array_append (item : Object) :
    packArray (items.length + 1) ++ packItems items ++ pack item = pack (.array (items ++ [item])) := by
  simp [pack_array, packItems_eq]

theorem pack_map_append (text : Bytes) (value : Object) :
    packMap (entries.length + 1) ++ packEntries entries ++ packStr text ++ pack value =
      pack (.map (entries ++ [(.str text, value)])) := by
  simp [packEntries_eq, pack]

theorem appendSubkey_eq {levels matched : Int} {inVal : Object} (obj : Object) (more : subkeys ≠ [])
    (positive : 0 ≤ matched) (inStep : levels + 1 = matched + subkeys.length) :
    appendSubkey levels inVal subkeys obj matched =
      (descend (appendLeaf inVal) subkeys obj).map fun new => (pack new, -1) := by
  induction subkeys generalizing obj matched with
  | nil => exact absurd rfl more
  | cons entry later ih =>
    cases later with
    | nil =>
      have last : levels = matched := by simpa using inStep
      cases entry with
      | arrayId id =>
        cases obj with
        | array items => simp [appendSubkey, last, descend, appendLeaf, Except.map, ← pack_array_append]
        | _ => rfl
      | str name =>
        cases obj with
        | map entries => simp [appendSubkey, last, descend, appendLeaf, Except.map, ← pack_map_append]
        | _ => rfl
    | cons next later =>
      simp only [length_cons] at inStep
      have notLast : levels ≠ matched := by omega
      have onward : levels + 1 = matched + 1 + (next :: later).length := by
        rw [length_cons]
        omega
      cases entry with
      | arrayId id =>
        cases obj with
        | array items =>
          rw [appendSubkey, if_neg notLast]
          apply packed_visit_array
          intro item
          rw [if_pos positive]
          exact ih item (by simp) (by omega) onward
        | _ => rfl
      | str name =>
        cases obj with
        | map entries =>
          rw [appendSubkey, if_neg notLast]
          apply packed_visit_map
          intro entry
          rw [if_pos positive, ih entry.2 (by simp) (by omega) onward]
        | _ => rfl

theorem flbRaKeyValueUpdate_eq (key : Key) (map : Object) : flbRaKeyValueUpdate key map inKey inVal =
      (descend (updateLeaf inKey inVal) key.entries map).map fun new => (pack new, (key.subkeys.length : Int)) := by
  obtain ⟨name, subkeys⟩ := key
  cases map with
  | map entries =>
    cases subkeys with
    | nil =>
      rw [Key.entries, descend, updateLeaf_map]
      apply packed_map
      intro entry
      simp [Except.map]
    | cons next later =>
      apply packed_visit_map
      intro entry
      rw [if_neg (by simp), updateSubkey_eq entry.2 (by simp) (by simp)]
  | _ => cases subkeys <;> rfl

theorem flbRaKeyValueAppend_eq (key : Key) (inVal : Object) :
    flbRaKeyValueAppend key entries inVal = (descend (appendLeaf inVal) key.entries (.map entries)).map fun new =>
        (pack new, if key.subkeys = [] then 0 else -1) := by
  obtain ⟨name, subkeys⟩ := key
  cases subkeys with
  | nil => simp [flbRaKeyValueAppend, Key.entries, descend, appendLeaf, Except.map, ← pack_map_append]
  | cons next later =>
    have more : ¬ ((next :: later).length : Int) - 1 < 0 := by
      rw [length_cons]
      omega
    rw [flbRaKeyValueAppend, if_neg more]
    apply packed_visit_map
    intro entry
    rw [appendSubkey_eq entry.2 (by simp) (Int.le_refl 0) (by omega)]
    rfl

/-! ### Objects and paths -/

def ofOption : Option Object → Except Failure Object
  | none => .error .refused
  | some object => .ok object

variable {entry : Subentry}

theorem visit_eq {change : Object → Option Object} (small : bounded [entry] = true)
    (same : ∀ object, inner object = ofOption (change object)) (object : Object) :
    entry.visit inner object = ofOption (entry.step.modify change object) := by
  cases entry with
  | arrayId id =>
    cases object with
    | array items =>
      have notLargest : id.val ≠ intMax := by simpa [bounded] using small
      cases there : items[id.val]? with
      | none => simp [Subentry.visit, notLargest, there, Subentry.step, Step.modify, ofOption]
      | some item =>
        simp only [Subentry.visit, notLargest, there, same, Subentry.step, Step.modify, ↓reduceIte, bind_some]
        cases change item <;> rfl
    | _ => rfl
  | str name =>
    cases object with
    | map entries =>
      have last : lastIndex (Entitled name.text) entries = raKeyValId name.text (.map entries) := by
        simp [raKeyValId, hasKey_eq, lastIndex]
      simp only [Subentry.visit, Subentry.step, Step.modify, last]
      cases found : raKeyValId name.text (.map entries) with
      | none => simp [keyEntry_of_no_id found, ofOption]
      | some i =>
        obtain ⟨⟨key, value⟩, there, present⟩ := keyEntry_of_id found
        simp only [present, there, same, bind_some]
        cases change value <;> rfl
    | _ => rfl

theorem descend_cons (leaf : Subentry → Object → Except Failure Object) (init : List Subentry)
    (last : Subentry) (object : Object) :
    descend leaf (entry :: init ++ [last]) object = entry.visit (descend leaf (init ++ [last])) object := by
  cases init <;> rfl

theorem bounded_cons (later : List Subentry) : bounded (entry :: later) = (bounded [entry] && bounded later) := by
  simp [bounded]

variable {leaf : Subentry → Object → Except Failure Object} {init : List Subentry} {last : Subentry}

theorem descend_eq {change : Step → Object → Option Object} (small : bounded init = true)
    (same : ∀ object, leaf last object = ofOption (change last.step object)) (object : Object) :
    descend leaf (init ++ [last]) object = ofOption (atEnd change (init.map Subentry.step ++ [last.step]) object) := by
  induction init generalizing object with
  | nil => exact same object
  | cons entry init ih =>
    rw [bounded_cons, Bool.and_eq_true] at small
    rw [descend_cons, map_cons, atEnd_cons]
    exact visit_eq small.1 (ih small.2) object

theorem visit_refused (refused : bounded [entry] = false ∨ ∀ object, inner object = .error .refused) (object : Object) :
    entry.visit inner object = .error .refused := by
  cases entry with
  | arrayId id =>
    cases object with
    | array items =>
      by_cases largest : id.val = intMax
      · simp [Subentry.visit, largest]
      · have inside : ∀ object, inner object = .error .refused := by
          rcases refused with small | inside
          · simp [bounded, largest] at small
          · exact inside
        cases there : items[id.val]? <;> simp [Subentry.visit, largest, there, inside, Except.map]
    | _ => rfl
  | str name =>
    have inside : ∀ object, inner object = .error .refused := by
      rcases refused with small | inside
      · cases small
      · exact inside
    cases object with
    | map entries =>
      cases present : keyEntry name.text (.map entries) <;> simp [Subentry.visit, present, inside, Except.map]
    | _ => rfl

theorem descend_refused (refused : bounded init = false ∨ ∀ object, leaf last object = .error .refused)
    (object : Object) : descend leaf (init ++ [last]) object = .error .refused := by
  induction init generalizing object with
  | nil =>
    rcases refused with small | always
    · cases small
    · exact always object
  | cons entry init ih =>
    rw [descend_cons]
    apply visit_refused
    rcases refused with small | always
    · rw [bounded_cons, Bool.and_eq_false_iff] at small
      rcases small with here | later
      · exact .inl here
      · exact .inr (ih (.inl later))
    · exact .inr (ih (.inr always))

theorem visit_crash {object member : Object} {position : Position} (small : bounded [entry] = true)
    (goes : entry.step.go object = some (position, member)) (crash : inner member = .error .crash) :
    entry.visit inner object = .error .crash := by
  cases entry with
  | arrayId id =>
    have notLargest : id.val ≠ intMax := by simpa [bounded] using small
    cases object with
    | array items =>
      simp only [Subentry.step, Step.go, map_eq_some_iff] at goes
      obtain ⟨item, there, same⟩ := goes
      cases same
      simp [Subentry.visit, notLargest, there, crash, Except.map]
    | _ => cases goes
  | str name =>
    rw [Subentry.step, go_name] at goes
    obtain ⟨⟨i, key, value⟩, present, same⟩ := map_eq_some_iff.mp goes
    cases same
    cases object with
    | map entries => simp [Subentry.visit, present, crash, Except.map]
    | _ => cases present

theorem descend_crash {object container : Object} (small : bounded init = true)
    (found : follow (init.map Subentry.step) object = some container) (crash : leaf last container = .error .crash) :
    descend leaf (init ++ [last]) object = .error .crash := by
  induction init generalizing object with
  | nil =>
    cases found
    exact crash
  | cons entry init ih =>
    rw [bounded_cons, Bool.and_eq_true] at small
    rw [map_cons, follow_cons] at found
    obtain ⟨⟨position, member⟩, goes, onward⟩ := bind_eq_some_iff.mp found
    rw [descend_cons]
    exact visit_crash small.1 goes (ih small.2 onward)

theorem updateLeaf_name (name : Name) (object : Object) : updateLeaf inKey inVal (.str name) object =
    ofOption (Step.replace inKey inVal (.name name.text) object) := by
  cases object with
  | map entries =>
    have last : lastIndex (Entitled name.text) entries = raKeyValId name.text (.map entries) := by
      simp [raKeyValId, hasKey_eq, lastIndex]
    simp only [updateLeaf, Step.replace, last]
    cases found : raKeyValId name.text (.map entries) with
    | none => simp [keyEntry_of_no_id found, ofOption]
    | some i =>
      obtain ⟨⟨key, value⟩, there, present⟩ := keyEntry_of_id found
      simp [present, there, ofOption]
  | _ => rfl

theorem updateLeaf_index (inKey : Option Object) (value : Object) (small : id.val ≠ intMax) (object : Object) :
    updateLeaf inKey (some value) (.arrayId id) object = ofOption (Step.replace none (some value) (.index id.val) object) := by
  cases object with
  | array items =>
    cases there : items[id.val]? <;> simp [updateLeaf, Step.replace, small, there, ofOption]
  | _ => rfl

theorem appendLeaf_eq (inVal : Object) (object : Object) :
    appendLeaf inVal entry object = ofOption (Step.extend inVal entry.step object) := by
  cases entry <;> cases object <;> rfl

/-! ### The laws -/

def Lawful (returned : Returned) (outMap : Option Bytes) (Right : Object → Prop) : Prop :=
  ∃ ret out, returned = some (ret, out) ∧ (ret = 0 → ∃ new, out = some (pack new) ∧ Right new) ∧ (ret ≠ 0 → out = outMap)

def UpdateLaw (key : Key) (map : Object) (inKey inVal : Option Object) : Prop :=
  ∀ outMap, Lawful (flbRaUpdateKvPair key map outMap inKey inVal) outMap (Replaced inKey inVal key.path map)

def AppendLaw (key : Key) (entries : List (Object × Object)) (inVal : Option Object) : Prop :=
  ∀ outMap, Lawful (flbRaAppendKvPair key entries outMap inVal) outMap fun new =>
    ∃ value, inVal = some value ∧ Appended value key.path (.map entries) new

variable {outMap : Option Bytes} {Right : Object → Prop}

theorem lawful_refused : Lawful (some (-1, outMap)) outMap Right :=
  ⟨-1, outMap, rfl, fun zero => absurd zero (by decide), fun _ => rfl⟩

def outcome (outMap : Option Bytes) : Except Failure Object → Returned
  | .ok new => some (0, some (pack new))
  | .error .refused => some (-1, outMap)
  | .error .crash => none

theorem handOut_map (result : Except Failure Object) :
    handOut outMap (result.map fun new => (pack new, matched)) = outcome outMap result := by
  rcases result with ⟨⟨⟩⟩ | new <;> rfl

theorem lawful_ofOption {result : Option Object} (right : ∀ new, result = some new → Right new) :
    Lawful (outcome outMap (ofOption result)) outMap Right := by
  cases result with
  | none => exact lawful_refused
  | some new =>
    exact ⟨0, some (pack new), rfl, fun _ => ⟨new, rfl, right new rfl⟩, fun other => absurd rfl other⟩

theorem Lawful.right {new : Object} (lawful : Lawful (outcome outMap (.ok new)) outMap Right) : ∃ new, Right new := by
  obtain ⟨ret, out, same, success, _⟩ := lawful
  cases same
  obtain ⟨new, _, right⟩ := success rfl
  exact ⟨new, right⟩

theorem not_lawful_crash : ¬ Lawful (outcome outMap (.error .crash)) outMap Right := by
  rintro ⟨ret, out, same, _⟩
  cases same

variable {key : Key}

theorem subkeys_of_index (split : key.entries = init ++ [.arrayId id]) : key.subkeys ≠ [] := by
  intro none
  unfold Key.entries at split
  rw [none] at split
  cases init with
  | nil => cases split
  | cons first init => simp at split

variable {map : Object}

theorem scalar_of_pair (split : key.entries = init ++ [.arrayId id]) (given : flbRaGetKvPair key map = some pair)
    (other : follow key.path map = none ∨ bounded key.subkeys = false ∨ hasName key.subkeys = false) :
    ∃ entry, keyEntry key.name.text map = some entry ∧ isContainer entry.2.2 = false := by
  have more := subkeys_of_index split
  rw [flbRaGetKvPair_eq] at given
  obtain ⟨entry, present, rest⟩ := bind_eq_some_iff.mp given
  refine ⟨entry, present, ?_⟩
  rw [← Bool.not_eq_true]
  intro container
  simp only [more, container, decide_false, Bool.not_true, Bool.or_self, Bool.false_eq_true, ↓reduceIte] at rest
  split at rest
  next usable =>
    rw [Bool.and_eq_true] at usable
    obtain ⟨found, located, _⟩ := map_eq_some_iff.mp rest
    rcases other with missing | unbounded | nameless
    · rw [follow_path, follow_key, present, map_some, bind_some, follow, located] at missing
      cases missing
    · rw [usable.1] at unbounded
      cases unbounded
    · rw [usable.2] at nameless
      cases nameless
  · cases rest

theorem descend_scalar {entry : Nat × Object × Object} (present : keyEntry key.name.text map = some entry)
    (more : key.subkeys ≠ []) (scalar : isContainer entry.2.2 = false)
    (refuses : ∀ last object, isContainer object = false → leaf last object = .error .refused) :
    descend leaf key.entries map = .error .refused := by
  have below : descend leaf key.subkeys entry.2.2 = .error .refused := by
    cases subkeys : key.subkeys with
    | nil => exact absurd subkeys more
    | cons next later =>
      cases later with
      | nil => exact refuses next _ scalar
      | cons second later =>
        cases value : entry.2.2 with
        | array items | map entries => rw [value] at scalar; cases scalar
        | _ => cases next <;> rfl
  unfold Key.entries
  cases subkeys : key.subkeys with
  | nil => exact absurd subkeys more
  | cons next later =>
    rw [subkeys] at below
    cases map with
    | map entries =>
      simp [descend, Subentry.visit, present, below, Except.map]
    | _ => cases present

theorem updateLeaf_scalar (last : Subentry) (object : Object) (scalar : isContainer object = false) :
    updateLeaf inKey inVal last object = .error .refused := by
  cases object with
  | array items | map entries => cases scalar
  | _ => cases last <;> rfl

theorem flbRaUpdateKvPair_eq (some : (inKey.isNone && inVal.isNone) = false)
    (given : flbRaGetKvPair key map = .some pair) (outMap : Option Bytes) :
    flbRaUpdateKvPair key map outMap inKey inVal =
      outcome outMap (descend (updateLeaf inKey inVal) key.entries map) := by
  unfold flbRaUpdateKvPair
  rw [some, given]
  simp only [Bool.false_eq_true, ↓reduceIte]
  rw [flbRaKeyValueUpdate_eq, handOut_map]

theorem replaceAt_index (key : Object) (value : Option Object) (init : List Step) (position : Nat) (object : Object) :
    replaceAt (some key) value (init ++ [.index position]) object = none := by
  apply eq_none_iff_forall_ne_some.mpr
  intro new replaced
  obtain ⟨old, container, _, done, _⟩ := atEnd_spec replaced
  cases old <;> cases done

theorem updateLaw_iff (key : Key) (map : Object) (inKey inVal : Option Object) :
    UpdateLaw key map inKey inVal ↔ ∀ init id, key.entries = init ++ [.arrayId id] →
      inKey = none ∨ follow key.path map = none ∨ bounded key.subkeys = false ∨ hasName key.subkeys = false := by
  constructor
  · intro law init id split
    by_contra wrong
    simp only [not_or, Bool.not_eq_false] at wrong
    obtain ⟨keyed, found, small, named⟩ := wrong
    obtain ⟨value, exists_⟩ := ne_none_iff_exists'.mp found
    obtain ⟨given, rfl⟩ := ne_none_iff_exists'.mp keyed
    obtain ⟨pair, looked, _⟩ := flbRaGetKvPair_of_follow split exists_ fun _ => ⟨small, named⟩
    have lawful := law none
    rw [flbRaUpdateKvPair_eq (by simp) looked, split] at lawful
    rw [← bounded_entries, split, bounded_append, Bool.and_eq_true] at small
    rw [path_split split, follow_append] at exists_
    obtain ⟨container, before, goes⟩ := bind_eq_some_iff.mp exists_
    have notLargest : id.val ≠ intMax := by simpa [bounded] using small.2
    cases container with
    | array items =>
      obtain ⟨item, there⟩ : ∃ item, items[id.val]? = some item := by
        cases there : items[id.val]? with
        | none => simp [Subentry.step, Step.go, there] at goes
        | some item => exact ⟨item, rfl⟩
      cases inVal with
      | none =>
        rw [descend_crash small.1 before (by simp [updateLeaf, notLargest, there])] at lawful
        exact not_lawful_crash lawful
      | some given' =>
        rw [descend_eq small.1 (updateLeaf_index (some given) given' notLargest)] at lawful
        obtain ⟨new, done⟩ := @atEnd_exists (Step.replace none (some given')) _ (.index id.val) _ _ _ before
          (by simp [Step.replace, there]; rfl)
        rw [Subentry.step, done] at lawful
        obtain ⟨new, replaced⟩ := lawful.right
        have impossible := replaced.whole
        rw [path_split split, Subentry.step, replaceAt_index] at impossible
        cases impossible
    | _ => cases goes
  · intro condition outMap
    cases nothing : inKey.isNone && inVal.isNone with
    | true =>
      simp only [flbRaUpdateKvPair, nothing, ↓reduceIte]
      exact lawful_refused
    | false =>
      cases looked : flbRaGetKvPair key map with
      | none =>
        simp only [flbRaUpdateKvPair, nothing, looked, Bool.false_eq_true, ↓reduceIte]
        exact lawful_refused
      | some pair =>
        obtain ⟨init, last, split⟩ := entries_split key
        rw [flbRaUpdateKvPair_eq nothing looked]
        cases last with
        | str name =>
          cases small : bounded init with
          | false =>
            rw [split, descend_refused (.inl small)]
            exact lawful_refused
          | true =>
            rw [split, descend_eq small (updateLeaf_name name)]
            apply lawful_ofOption
            intro new replaced
            apply Replaced.of_replaceAt
            rw [path_split split]
            exact replaced
        | arrayId id =>
          rcases condition init id split with keyless | other
          · subst keyless
            obtain ⟨given, rfl⟩ : ∃ given, inVal = some given := by
              cases inVal with
              | none => cases nothing
              | some given => exact ⟨given, rfl⟩
            by_cases small : bounded init = true ∧ id.val ≠ intMax
            · rw [split, descend_eq small.1 (updateLeaf_index none given small.2)]
              apply lawful_ofOption
              intro new replaced
              apply Replaced.of_replaceAt
              rw [path_split split]
              exact replaced
            · rw [split, descend_refused]
              · exact lawful_refused
              · rw [not_and_or, Bool.not_eq_true, not_not] at small
                refine small.imp (fun unbounded => unbounded) fun largest object => ?_
                cases object <;> simp [updateLeaf, largest]
          · obtain ⟨entry, present, scalar⟩ := scalar_of_pair split looked other
            rw [descend_scalar present (subkeys_of_index split) scalar updateLeaf_scalar]
            exact lawful_refused

theorem flbRaAppendKvPair_eq {value : Object}
    (fresh : ∀ pair, flbRaGetKvPair key (.map entries) = some pair → pair.outKey = none) :
    flbRaAppendKvPair key entries outMap (some value) =
      outcome outMap (descend (appendLeaf value) key.entries (.map entries)) := by
  unfold flbRaAppendKvPair
  simp only
  split
  next startKey outKey outVal given =>
    have impossible := fresh _ given
    cases impossible
  · rw [flbRaKeyValueAppend_eq, handOut_map]

theorem outKey_of_index (split : key.entries = init ++ [.arrayId id]) (given : flbRaGetKvPair key map = some pair)
    (members : ∀ top, follow [.name key.name.text] map = some top → isContainer top = true) : pair.outKey = none := by
  have more := subkeys_of_index split
  rw [flbRaGetKvPair_eq] at given
  obtain ⟨entry, present, rest⟩ := bind_eq_some_iff.mp given
  have container := members entry.2.2 (by rw [follow_key, present]; rfl)
  simp only [more, container, decide_false, Bool.not_true, Bool.or_self, Bool.false_eq_true, ↓reduceIte] at rest
  split at rest
  · obtain ⟨found, _, rfl⟩ := map_eq_some_iff.mp rest
    exact keyAt_last split more _
  · cases rest

theorem members_of_array (split : key.entries = init ++ [last]) (more : key.subkeys ≠ [])
    (before : follow (init.map Subentry.step) map = some (.array items)) (top : Object)
    (there : follow [.name key.name.text] map = some top) : isContainer top = true := by
  cases init with
  | nil =>
    exact absurd (List.cons.inj split).2 more
  | cons first init =>
    obtain ⟨same, _⟩ := List.cons.inj split
    subst same
    have path : (Subentry.str key.name :: init).map Subentry.step =
        [.name key.name.text] ++ init.map Subentry.step := rfl
    rw [path, follow_append, there, bind_some] at before
    rw [← Bool.not_eq_false]
    intro scalar
    by_cases steps : init.map Subentry.step = []
    · rw [steps] at before
      cases before
      cases scalar
    · rw [follow_scalar scalar steps] at before
      cases before

theorem appendLaw_iff :
    AppendLaw key entries inVal ↔ ∀ init id items, inVal ≠ none → key.entries = init ++ [.arrayId id] →
      bounded init = true → follow (init.map Subentry.step) (.map entries) = some (.array items) →
      id.val = items.length := by
  constructor
  · intro law init id items given split small before
    obtain ⟨value, rfl⟩ := ne_none_iff_exists'.mp given
    have members := members_of_array split (subkeys_of_index split) before
    have lawful := law none
    rw [flbRaAppendKvPair_eq (fun pair looked => outKey_of_index split looked members), split,
      descend_eq small (appendLeaf_eq value)] at lawful
    obtain ⟨new, done⟩ := @atEnd_exists (Step.extend value) _ (.index id.val) _ _ _ before rfl
    rw [Subentry.step, done] at lawful
    obtain ⟨new, _, same, appended⟩ := lawful.right
    cases same
    have whole := appended.whole
    rw [path_split split] at whole
    obtain ⟨old, container, reached, extended, after, _⟩ := atEnd_spec whole
    rw [before] at reached
    cases reached
    cases extended
    have absent := appended.fresh
    have present := appended.found
    rw [path_split split, follow_last before] at absent
    rw [path_split split, follow_last after] at present
    have low : items.length ≤ id.val := by simpa [Subentry.step, Step.go] using absent
    have high : id.val < (items ++ [value]).length := by
      cases there : (items ++ [value])[id.val]? with
      | none => simp [Subentry.step, Step.go, there] at present
      | some item => exact (List.getElem?_eq_some_iff.mp there).1
    rw [length_append, length_singleton] at high
    omega
  · intro condition outMap
    cases inVal with
    | none => exact lawful_refused
    | some value =>
      by_cases fresh : ∀ pair, flbRaGetKvPair key (.map entries) = some pair → pair.outKey = none
      · rw [flbRaAppendKvPair_eq fresh]
        obtain ⟨init, last, split⟩ := entries_split key
        cases small : bounded init with
        | false =>
          rw [split, descend_refused (.inl small)]
          exact lawful_refused
        | true =>
          rw [split, descend_eq small (appendLeaf_eq value)]
          apply lawful_ofOption
          intro new appended
          refine ⟨value, rfl, Appended.of_appendAt (by rw [path_split split]; exact appended) ?_ ?_⟩
          · apply eq_none_iff_forall_ne_some.mpr
            intro target found
            cases last with
            | str name =>
              obtain ⟨pair, looked, keyed⟩ := flbRaGetKvPair_of_follow split found fun more => by
                rw [← bounded_entries, split, bounded_append, small]
                exact ⟨rfl, hasName_of_last split more⟩
              rw [fresh pair looked] at keyed
              cases keyed
            | arrayId id =>
              rw [path_split split, follow_append] at found
              obtain ⟨container, before, goes⟩ := bind_eq_some_iff.mp found
              cases container with
              | array items =>
                have place := condition init id items (by simp) split small before
                simp [Subentry.step, Step.go, place] at goes
              | _ => cases goes
          · intro front position items path before
            rw [path_split split] at path
            obtain ⟨same, ends⟩ := append_inj' path rfl
            subst same
            cases last with
            | str name => cases ends
            | arrayId id =>
              cases ends
              exact condition init id items (by simp) split small before
      · simp only [not_forall] at fresh
        obtain ⟨pair, looked, keyed⟩ := fresh
        obtain ⟨startKey, outKey, outVal⟩ := pair
        obtain ⟨found, rfl⟩ := ne_none_iff_exists'.mp keyed
        simp only [flbRaAppendKvPair, looked]
        exact lawful_refused

/-- Both laws, each with the condition under which it holds. -/
theorem laws_iff (key : Key) (entries : List (Object × Object)) (inKey inVal : Option Object) :
    (UpdateLaw key (.map entries) inKey inVal ↔ ∀ init id, key.entries = init ++ [.arrayId id] →
      inKey = none ∨ follow key.path (.map entries) = none ∨ bounded key.subkeys = false ∨
        hasName key.subkeys = false) ∧
    (AppendLaw key entries inVal ↔ ∀ init id items, inVal ≠ none → key.entries = init ++ [.arrayId id] →
      bounded init = true → follow (init.map Subentry.step) (.map entries) = some (.array items) →
      id.val = items.length) :=
  ⟨updateLaw_iff key (.map entries) inKey inVal, appendLaw_iff⟩

/-- `$a['b'][0]` in `{"a": {"b": [nil]}}`: a value is appended to an array that has the index, and a
key that is given without a value is read through `NULL`. -/
theorem laws_fail_at_index : ¬ AppendLaw ⟨⟨[0x61], by decide⟩, [.str ⟨[0x62], by decide⟩, .arrayId 0]⟩
      [(.str [0x61], .map [(.str [0x62], .array [.nil])])] (some .nil) ∧
    flbRaUpdateKvPair ⟨⟨[0x61], by decide⟩, [.str ⟨[0x62], by decide⟩, .arrayId 0]⟩
      (.map [(.str [0x61], .map [(.str [0x62], .array [.nil])])]) none (some .nil) none = none := by
  constructor
  · rw [appendLaw_iff]
    intro condition
    have wrong := condition [.str ⟨[0x61], by decide⟩, .str ⟨[0x62], by decide⟩] 0 [.nil] (by simp) rfl rfl rfl
    exact absurd wrong (by decide)
  · rfl

end FluentBit.RecordAccessor
