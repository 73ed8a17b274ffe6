import FluentBit.Foundation.Ascii
import Mathlib.Tactic.Ring

/-! MessagePack: objects, and a reader of bytes with a stack of open containers. An object
that was read does not depend on the bytes behind it. -/

set_option autoImplicit false

namespace Msgpack

open List

inductive Object where
  | nil
  | boolean (value : Bool)
  | positive (u64 : BitVec 64)
  | negative (i64 : BitVec 64)
  | float32 (bits : BitVec 32)
  | float64 (bits : BitVec 64)
  | str (text : Bytes)
  | bin (data : Bytes)
  | ext (type : UInt8) (data : Bytes)
  | array (items : List Object)
  | map (entries : List (Object × Object))

/-- The outcome of a read: a value and the bytes behind it, or bytes that are too few for
what comes next, or wrong ones. -/
inductive Reading (α : Type) where
  | done (value : α) (rest : Bytes)
  | short (rest : Bytes)
  | bad

def andThen {α β : Type} (read : Bytes → Reading α) (next : α → Bytes → Reading β) (bytes : Bytes) : Reading β :=
  match read bytes with
  | .done value rest => next value rest
  | .short rest => .short rest
  | .bad => .bad

def give {α : Type} (value : α) (bytes : Bytes) : Reading α := .done value bytes

def refuse {α : Type} (_ : Bytes) : Reading α := .bad

def trail (count : Nat) (bytes : Bytes) : Reading Bytes :=
  if bytes.length < count then .short bytes else .done (bytes.take count) (bytes.drop count)

def load (bytes : Bytes) : Nat := bytes.foldl (fun sum byte => sum * 256 + byte.toNat) 0

def store : Nat → Nat → Bytes
  | 0, _ => []
  | width + 1, number => UInt8.ofNat (number / 256 ^ width) :: store width number

@[simp] theorem length_store (width number : Nat) : (store width number).length = width := by
  induction width with
  | zero => rfl
  | succ width ih => simp [store, ih]

theorem foldl_store (width number start : Nat) :
    (store width number).foldl (fun sum byte => sum * 256 + byte.toNat) start =
      start * 256 ^ width + number % 256 ^ width := by
  induction width generalizing start with
  | zero => simp [store, Nat.mod_one]
  | succ width ih =>
    have split := Nat.mod_mul (a := 256 ^ width) (b := 256) (x := number)
    simp only [store, foldl_cons, ih, Nat.pow_succ, split, UInt8.toNat_ofNat']
    ring

theorem load_store (width number : Nat) : load (store width number) = number % 256 ^ width := by
  simp [load, foldl_store]

inductive Container where
  | array
  | map
deriving DecidableEq

inductive Head where
  | object (object : Object)
  | container (kind : Container) (count : Nat)

def fixed {α : Type} (width : Nat) (make : Nat → α) : Bytes → Reading α :=
  andThen (trail width) fun data => give (make (load data))

def sized (width : Nat) (make : Bytes → Object) : Bytes → Reading Head :=
  andThen (fixed width id) fun count => andThen (trail count) fun data => give (.object (make data))

def extOf : Bytes → Bytes → Reading Head
  | [] => refuse
  | type :: data => give (.object (.ext type data))

def extended (count : Nat) : Bytes → Reading Head := andThen (trail ((count + 1) % 2 ^ 32)) extOf

def signed (width : Nat) (number : Nat) : Object :=
  if number < 2 ^ (8 * width - 1) then .positive (BitVec.ofNat 64 number)
  else .negative (BitVec.ofInt 64 (number - 2 ^ (8 * width)))

def unsigned (number : Nat) : Object := .positive (BitVec.ofNat 64 number)

def readFrom (byte : UInt8) : Bytes → Reading Head :=
  if byte ≤ 0x7f then give (.object (unsigned byte.toNat))
  else if byte ≤ 0x8f then give (.container .map (byte.toNat % 16))
  else if byte ≤ 0x9f then give (.container .array (byte.toNat % 16))
  else if byte ≤ 0xbf then andThen (trail (byte.toNat % 32)) fun text => give (.object (.str text))
  else if byte = 0xc0 then give (.object .nil)
  else if byte = 0xc2 then give (.object (.boolean false))
  else if byte = 0xc3 then give (.object (.boolean true))
  else if byte = 0xc4 then sized 1 .bin
  else if byte = 0xc5 then sized 2 .bin
  else if byte = 0xc6 then sized 4 .bin
  else if byte = 0xc7 then andThen (fixed 1 id) extended
  else if byte = 0xc8 then andThen (fixed 2 id) extended
  else if byte = 0xc9 then andThen (fixed 4 id) extended
  else if byte = 0xca then fixed 4 fun bits => .object (.float32 (BitVec.ofNat 32 bits))
  else if byte = 0xcb then fixed 8 fun bits => .object (.float64 (BitVec.ofNat 64 bits))
  else if byte = 0xcc then fixed 1 fun number => .object (unsigned number)
  else if byte = 0xcd then fixed 2 fun number => .object (unsigned number)
  else if byte = 0xce then fixed 4 fun number => .object (unsigned number)
  else if byte = 0xcf then fixed 8 fun number => .object (unsigned number)
  else if byte = 0xd0 then fixed 1 fun number => .object (signed 1 number)
  else if byte = 0xd1 then fixed 2 fun number => .object (signed 2 number)
  else if byte = 0xd2 then fixed 4 fun number => .object (signed 4 number)
  else if byte = 0xd3 then fixed 8 fun number => .object (signed 8 number)
  else if byte = 0xd4 then extended 1
  else if byte = 0xd5 then extended 2
  else if byte = 0xd6 then extended 4
  else if byte = 0xd7 then extended 8
  else if byte = 0xd8 then extended 16
  else if byte = 0xd9 then sized 1 .str
  else if byte = 0xda then sized 2 .str
  else if byte = 0xdb then sized 4 .str
  else if byte = 0xdc then fixed 2 fun count => .container .array count
  else if byte = 0xdd then fixed 4 fun count => .container .array count
  else if byte = 0xde then fixed 2 fun count => .container .map count
  else if byte = 0xdf then fixed 4 fun count => .container .map count
  else if 0xe0 ≤ byte then give (.object (signed 1 byte.toNat))
  else refuse

def readHead : Bytes → Reading Head
  | [] => .short []
  | byte :: rest => readFrom byte rest

def packUnsigned (number : Nat) : Bytes :=
  if number < 2 ^ 7 then store 1 number
  else if number < 2 ^ 8 then 0xcc :: store 1 number
  else if number < 2 ^ 16 then 0xcd :: store 2 number
  else if number < 2 ^ 32 then 0xce :: store 4 number
  else 0xcf :: store 8 number

def packExt (length : Nat) (type : UInt8) : Bytes :=
  if length = 1 then [0xd4, type]
  else if length = 2 then [0xd5, type]
  else if length = 4 then [0xd6, type]
  else if length = 8 then [0xd7, type]
  else if length = 16 then [0xd8, type]
  else if length < 256 then 0xc7 :: store 1 length ++ [type]
  else if length < 65536 then 0xc8 :: store 2 length ++ [type]
  else 0xc9 :: store 4 length ++ [type]

/-- A container whose members are read; `left` of them are still missing. -/
inductive Frame where
  | items (items : List Object) (left : Nat)
  | key (entries : List (Object × Object)) (left : Nat)
  | value (entries : List (Object × Object)) (key : Object) (left : Nat)

def Container.empty : Container → Object
  | .array => .array []
  | .map => .map []

def Container.frame (kind : Container) (count : Nat) : Frame :=
  match kind with
  | .array => .items [] count
  | .map => .key [] count

def push (object : Object) : List Frame → Object ⊕ List Frame
  | [] => .inl object
  | .items items left :: stack =>
    if left = 1 then push (.array (items ++ [object])) stack
    else .inr (.items (items ++ [object]) (left - 1) :: stack)
  | .key entries left :: stack => .inr (.value entries object left :: stack)
  | .value entries key left :: stack =>
    if left = 1 then push (.map (entries ++ [(key, object)])) stack
    else .inr (.key (entries ++ [(key, object)]) (left - 1) :: stack)

/-- What a head does to the open containers, of which there are at most `limit`. -/
def advance (limit : Nat) (stack : List Frame) : Head → Option (Object ⊕ List Frame)
  | .object object => some (push object stack)
  | .container kind count =>
    if limit ≤ stack.length then none
    else if count = 0 then some (push kind.empty stack)
    else some (.inr (kind.frame count :: stack))

def execute (limit : Nat) : Nat → List Frame → Bytes → Reading Object
  | 0, _, bytes => .short bytes
  | fuel + 1, stack, bytes =>
    match readHead bytes with
    | .short rest => .short rest
    | .bad => .bad
    | .done head rest =>
      match advance limit stack head with
      | none => .bad
      | some (.inl whole) => .done whole rest
      | some (.inr stack) => execute limit fuel stack rest

def unpack (limit : Nat) (bytes : Bytes) : Reading Object := execute limit bytes.length [] bytes

/-! ### What was read -/

def Stable {α : Type} (read : Bytes → Reading α) : Prop :=
  ∀ (bytes : Bytes) (value : α) (rest : Bytes), read bytes = .done value rest →
    ∃ used, bytes = used ++ rest ∧ ∀ more, read (used ++ more) = .done value more

section

variable {α β : Type}

theorem Stable.give (value : α) : Stable (Msgpack.give value) := by
  intro bytes found rest read
  cases read
  exact ⟨[], rfl, fun _ => rfl⟩

theorem Stable.refuse : Stable (Msgpack.refuse (α := α)) := by
  intro bytes found rest read
  cases read

theorem Stable.trail (count : Nat) : Stable (Msgpack.trail count) := by
  intro bytes found rest read
  unfold Msgpack.trail at read
  split at read
  · cases read
  next enough =>
    cases read
    refine ⟨bytes.take count, (take_append_drop count bytes).symm, ?_⟩
    intro more
    have length : (bytes.take count).length = count := by
      rw [length_take]
      omega
    unfold Msgpack.trail
    rw [if_neg (by rw [length_append]; omega), take_left' length, drop_left' length]

theorem Stable.andThen {read : Bytes → Reading α} {next : α → Bytes → Reading β} (first : Stable read)
    (second : ∀ value, Stable (next value)) : Stable (andThen read next) := by
  intro bytes value rest done
  unfold Msgpack.andThen at done
  split at done
  next found behind read =>
    obtain ⟨used, rfl, again⟩ := first _ _ _ read
    obtain ⟨further, rfl, onward⟩ := second found _ _ _ done
    refine ⟨used ++ further, (append_assoc ..).symm, ?_⟩
    intro more
    unfold Msgpack.andThen
    rw [append_assoc, again]
    exact onward more
  · cases done
  · cases done

theorem Stable.fixed (width : Nat) (make : Nat → α) : Stable (fixed width make) :=
  (Stable.trail width).andThen fun _ => .give _

theorem Stable.sized (width : Nat) (make : Bytes → Object) : Stable (sized width make) :=
  (Stable.fixed width id).andThen fun count => (Stable.trail count).andThen fun _ => .give _

theorem Stable.extended (count : Nat) : Stable (extended count) := by
  apply (Stable.trail _).andThen
  intro data
  cases data with
  | nil => exact .refuse
  | cons type data => exact .give _

theorem Stable.ite {left right : Bytes → Reading α} (condition : Prop) [Decidable condition] (first : Stable left)
    (second : Stable right) : Stable (if condition then left else right) := by
  split
  · exact first
  · exact second

theorem Stable.readFrom (byte : UInt8) : Stable (readFrom byte) := by
  unfold Msgpack.readFrom
  repeat' apply Stable.ite
  all_goals first
    | exact .give _
    | exact .refuse
    | exact .fixed _ _
    | exact .sized _ _
    | exact .extended _
    | exact (Stable.trail _).andThen fun _ => .give _
    | exact (Stable.fixed _ id).andThen .extended

/-- What has been read does not change with the bytes that follow. -/
theorem readHead_stable {bytes : Bytes} {head : Head} {rest : Bytes} (read : readHead bytes = .done head rest) :
    ∃ used, bytes = used ++ rest ∧ 0 < used.length ∧ ∀ more, readHead (used ++ more) = .done head more := by
  cases bytes with
  | nil => cases read
  | cons byte bytes =>
    obtain ⟨used, rfl, again⟩ := Stable.readFrom byte _ _ _ read
    exact ⟨byte :: used, rfl, Nat.succ_pos _, again⟩

end

variable {bytes rest : Bytes} {object : Object} {limit : Nat}

theorem execute_stable {fuel : Nat} {stack : List Frame} (read : execute limit fuel stack bytes = .done object rest) :
    ∃ used, bytes = used ++ rest ∧ 0 < used.length ∧
      ∀ more enough, used.length ≤ enough → execute limit enough stack (used ++ more) = .done object more := by
  induction fuel generalizing stack bytes with
  | zero => cases read
  | succ fuel ih =>
    unfold execute at read
    split at read
    · cases read
    · cases read
    next head behind found =>
      obtain ⟨used, rfl, nonempty, again⟩ := readHead_stable found
      split at read
      · cases read
      next whole advanced =>
        cases read
        refine ⟨used, rfl, nonempty, ?_⟩
        intro more enough bound
        cases enough with
        | zero => omega
        | succ enough => simp [execute, again, advanced]
      next stack advanced =>
        obtain ⟨further, rfl, _, onward⟩ := ih read
        refine ⟨used ++ further, (append_assoc ..).symm, by simp; omega, ?_⟩
        intro more enough bound
        rw [length_append] at bound
        cases enough with
        | zero => omega
        | succ enough =>
          simp only [execute, append_assoc, again, advanced]
          exact onward more enough (by omega)

theorem unpack_stable (read : unpack limit bytes = .done object rest) :
    ∃ used, bytes = used ++ rest ∧ 0 < used.length ∧ ∀ more, unpack limit (used ++ more) = .done object more := by
  obtain ⟨used, split, nonempty, again⟩ := execute_stable read
  exact ⟨used, split, nonempty, fun more => again more _ (by simp)⟩

/-! The writer of MessagePack: each kind of object in its shortest form. What is written is read
back as the same object. -/

def packNil : Bytes := [0xc0]

def packBoolean (value : Bool) : Bytes := [if value then 0xc3 else 0xc2]

def packInt (value : Int) : Bytes :=
  if value < -2 ^ 31 then 0xd3 :: store 8 (value % 2 ^ 64).toNat
  else if value < -2 ^ 15 then 0xd2 :: store 4 (value % 2 ^ 32).toNat
  else if value < -2 ^ 7 then 0xd1 :: store 2 (value % 2 ^ 16).toNat
  else if value < -2 ^ 5 then 0xd0 :: store 1 (value % 2 ^ 8).toNat
  else if value < 2 ^ 7 then store 1 (value % 2 ^ 8).toNat
  else packUnsigned value.toNat

def packFloat (bits : BitVec 32) : Bytes := 0xca :: store 4 bits.toNat

def packDouble (bits : BitVec 64) : Bytes := 0xcb :: store 8 bits.toNat

def packStr (text : Bytes) : Bytes :=
  let length := text.length
  (if length < 32 then [UInt8.ofNat (0xa0 + length)]
    else if length < 256 then 0xd9 :: store 1 length
    else if length < 65536 then 0xda :: store 2 length
    else 0xdb :: store 4 length) ++ text

def packBin (data : Bytes) : Bytes :=
  let length := data.length
  (if length < 256 then 0xc4 :: store 1 length
    else if length < 65536 then 0xc5 :: store 2 length
    else 0xc6 :: store 4 length) ++ data

def packArray (count : Nat) : Bytes :=
  if count < 16 then [UInt8.ofNat (0x90 + count)]
  else if count < 65536 then 0xdc :: store 2 count
  else 0xdd :: store 4 count

def packMap (count : Nat) : Bytes :=
  if count < 16 then [UInt8.ofNat (0x80 + count)]
  else if count < 65536 then 0xde :: store 2 count
  else 0xdf :: store 4 count

mutual

def pack : Object → Bytes
  | .nil => packNil
  | .boolean value => packBoolean value
  | .positive u64 => packUnsigned u64.toNat
  | .negative i64 => packInt i64.toInt
  | .float32 bits => packFloat bits
  | .float64 bits => packDouble bits
  | .str text => packStr text
  | .bin data => packBin data
  | .ext type data => packExt data.length type ++ data
  | .array items => packArray items.length ++ packItems items
  | .map entries => packMap entries.length ++ packEntries entries

def packItems : List Object → Bytes
  | [] => []
  | item :: items => pack item ++ packItems items

def packEntries : List (Object × Object) → Bytes
  | [] => []
  | (key, value) :: entries => pack key ++ pack value ++ packEntries entries

end

mutual

def depth : Object → Nat
  | .array items => depthItems items + 1
  | .map entries => depthEntries entries + 1
  | _ => 0

def depthItems : List Object → Nat
  | [] => 0
  | item :: items => max (depth item) (depthItems items)

def depthEntries : List (Object × Object) → Nat
  | [] => 0
  | (key, value) :: entries => max (max (depth key) (depth value)) (depthEntries entries)

end

end Msgpack
