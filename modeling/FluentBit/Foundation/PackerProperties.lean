import FluentBit.Foundation.Msgpack

/-! What the writer of MessagePack writes is read back as the same object, wherever it stands. -/

set_option autoImplicit false

namespace Msgpack

open List Nat

inductive Packable : Object → Prop where
  | nil : Packable .nil
  | boolean (value : Bool) : Packable (.boolean value)
  | positive (u64 : BitVec 64) : Packable (.positive u64)
  | negative {i64 : BitVec 64} (below : i64.toInt < 0) : Packable (.negative i64)
  | float32 (bits : BitVec 32) : Packable (.float32 bits)
  | float64 (bits : BitVec 64) : Packable (.float64 bits)
  | bin {data : Bytes} (short : data.length < 2 ^ 32) : Packable (.bin data)
  | ext {type : UInt8} {data : Bytes} (short : data.length + 1 < 2 ^ 32) : Packable (.ext type data)
  | str {text : Bytes} (short : text.length < 2 ^ 32) : Packable (.str text)
  | array {items : List Object} (few : items.length < 2 ^ 32) (each : ∀ item ∈ items, Packable item) :
      Packable (.array items)
  | map {entries : List (Object × Object)} (few : entries.length < 2 ^ 32)
      (keys : ∀ entry ∈ entries, Packable entry.1) (values : ∀ entry ∈ entries, Packable entry.2) :
      Packable (.map entries)

variable {limit fuel : Nat} {stack : List Frame} {bytes rest : Bytes}

/-! ### Heads -/

theorem trail_append (data rest : Bytes) : trail data.length (data ++ rest) = .done data rest := by
  rw [trail, if_neg (by simp), take_left, drop_left]

theorem fixed_store {α : Type} (width number : Nat) (make : Nat → α) (small : number < 256 ^ width)
    (rest : Bytes) : fixed width make (store width number ++ rest) = .done (make number) rest := by
  have read := trail_append (store width number) rest
  rw [length_store] at read
  simp only [fixed, andThen, read, load_store, mod_eq_of_lt small]
  rfl

theorem sized_store (width : Nat) (make : Bytes → Object) (data rest : Bytes) (small : data.length < 256 ^ width) :
    sized width make (store width data.length ++ (data ++ rest)) = .done (.object (make data)) rest := by
  simp only [sized, andThen, fixed_store width data.length id small, id, trail_append]
  rfl

theorem ofNat_le (number bound : Nat) (inside : number ≤ bound) (small : bound < 256) :
    UInt8.ofNat number ≤ UInt8.ofNat bound := by
  rw [UInt8.le_iff_toNat_le, UInt8.toNat_ofNat', UInt8.toNat_ofNat']
  omega

variable {number count : Nat} {byte type : UInt8} {value : Int} {data : Bytes}

theorem readHead_small (small : number < 128) :
    readHead (store 1 number ++ rest) = .done (.object (unsigned number)) rest := by
  have low : UInt8.ofNat number ≤ 0x7f := ofNat_le number 0x7f (by omega) (by omega)
  simp only [store, Nat.pow_zero, Nat.div_one, cons_append, nil_append, readHead, readFrom, low, if_true, give,
    UInt8.toNat_ofNat']
  rw [mod_eq_of_lt (by omega)]

theorem readHead_unsigned (small : number < 2 ^ 64) (rest : Bytes) :
    readHead (packUnsigned number ++ rest) = .done (.object (unsigned number)) rest := by
  unfold packUnsigned
  split
  next low => exact readHead_small low
  · split
    next low => exact fixed_store 1 number (fun number => Head.object (unsigned number)) low rest
    · split
      next low => exact fixed_store 2 number (fun number => Head.object (unsigned number)) low rest
      · split
        next low => exact fixed_store 4 number (fun number => Head.object (unsigned number)) low rest
        · exact fixed_store 8 number (fun number => Head.object (unsigned number)) small rest

theorem readFrom_high (high : 0xe0 ≤ byte.toNat) : readFrom byte = give (.object (signed 1 byte.toNat)) := by
  simp only [readFrom, UInt8.le_iff_toNat_le, ← UInt8.toNat_inj]
  repeat rw [if_neg (by simp; omega)]
  rw [if_pos (by simp; omega)]

theorem signed_below (width : Nat) (modulus half : Int) (bits : ((2 ^ (8 * width) : Nat) : Int) = modulus)
    (sign : ((2 ^ (8 * width - 1) : Nat) : Int) = half) (twice : modulus = 2 * half) (below : value < 0)
    (above : -half ≤ value) : (value % modulus).toNat < 2 ^ (8 * width) ∧
      signed width (value % modulus).toNat = .negative (BitVec.ofInt 64 value) := by
  have complement : value % modulus = value + modulus := by
    rw [← Int.add_emod_right, Int.emod_eq_of_lt (by omega) (by omega)]
  rw [complement]
  refine ⟨by omega, ?_⟩
  rw [signed, if_neg (by omega)]
  congr 2
  have cast : ((2 : Int) ^ (8 * width)) = modulus := by
    rw [← bits]
    norm_cast
  omega

theorem readHead_negative (below : value < 0) (above : -2 ^ 63 ≤ value) (rest : Bytes) :
    readHead (packInt value ++ rest) = .done (.object (.negative (BitVec.ofInt 64 value))) rest := by
  unfold packInt
  split
  · obtain ⟨small, same⟩ := signed_below 8 (2 ^ 64) (2 ^ 63) (by rfl) (by rfl) (by rfl) below above
    rw [← same]
    exact fixed_store 8 _ (fun number => Head.object (signed 8 number)) small rest
  · split
    next first =>
      obtain ⟨small, same⟩ := signed_below 4 (2 ^ 32) (2 ^ 31) (by rfl) (by rfl) (by rfl) below (by omega)
      rw [← same]
      exact fixed_store 4 _ (fun number => Head.object (signed 4 number)) small rest
    · split
      · obtain ⟨small, same⟩ := signed_below 2 (2 ^ 16) (2 ^ 15) (by rfl) (by rfl) (by rfl) below (by omega)
        rw [← same]
        exact fixed_store 2 _ (fun number => Head.object (signed 2 number)) small rest
      · obtain ⟨small, same⟩ := signed_below 1 (2 ^ 8) (2 ^ 7) (by rfl) (by rfl) (by rfl) below (by omega)
        split
        · rw [← same]
          exact fixed_store 1 _ (fun number => Head.object (signed 1 number)) small rest
        · have whole : (value % 2 ^ 8).toNat / 256 ^ 0 = (value % 2 ^ 8).toNat := by simp
          have byte : (UInt8.ofNat (value % 2 ^ 8).toNat).toNat = (value % 2 ^ 8).toNat := by
            rw [UInt8.toNat_ofNat', mod_eq_of_lt small]
          rw [if_pos (by omega), ← same]
          simp only [store, whole, cons_append, nil_append, readHead]
          rw [readFrom_high (by rw [byte]; omega), byte]
          rfl

theorem readFrom_text (low : 0xa0 ≤ byte.toNat) (high : byte.toNat ≤ 0xbf) :
    readFrom byte = andThen (trail (byte.toNat % 32)) fun text => give (.object (.str text)) := by
  simp only [readFrom, UInt8.le_iff_toNat_le]
  rw [if_neg (by simp; omega), if_neg (by simp; omega), if_neg (by simp; omega), if_pos (by simp; omega)]

theorem readFrom_array (low : 0x90 ≤ byte.toNat) (high : byte.toNat ≤ 0x9f) :
    readFrom byte = give (.container .array (byte.toNat % 16)) := by
  simp only [readFrom, UInt8.le_iff_toNat_le]
  rw [if_neg (by simp; omega), if_neg (by simp; omega), if_pos (by simp; omega)]

theorem readFrom_map (low : 0x80 ≤ byte.toNat) (high : byte.toNat ≤ 0x8f) :
    readFrom byte = give (.container .map (byte.toNat % 16)) := by
  simp only [readFrom, UInt8.le_iff_toNat_le]
  rw [if_neg (by simp; omega), if_pos (by simp; omega)]

theorem readHead_str {text : Bytes} (short : text.length < 2 ^ 32) (rest : Bytes) :
    readHead (packStr text ++ rest) = .done (.object (.str text)) rest := by
  simp only [packStr, append_assoc]
  split
  next few =>
    have byte : (UInt8.ofNat (0xa0 + text.length)).toNat = 0xa0 + text.length := by
      rw [UInt8.toNat_ofNat', mod_eq_of_lt (by omega)]
    have count : (0xa0 + text.length) % 32 = text.length := by omega
    simp only [cons_append, nil_append, readHead]
    rw [readFrom_text (by omega) (by omega), byte, count]
    simp only [andThen, trail_append]
    rfl
  · split
    next few => exact sized_store 1 .str text rest few
    · split
      next few => exact sized_store 2 .str text rest few
      · exact sized_store 4 .str text rest short

theorem readHead_array (few : count < 2 ^ 32) (rest : Bytes) :
    readHead (packArray count ++ rest) = .done (.container .array count) rest := by
  unfold packArray
  split
  · have byte : (UInt8.ofNat (0x90 + count)).toNat = 0x90 + count := by
      rw [UInt8.toNat_ofNat', mod_eq_of_lt (by omega)]
    have number : (0x90 + count) % 16 = count := by omega
    simp only [cons_append, nil_append, readHead]
    rw [readFrom_array (by omega) (by omega), byte, number]
    rfl
  · split
    next few => exact fixed_store 2 count (fun count => Head.container .array count) few rest
    · exact fixed_store 4 count (fun count => Head.container .array count) few rest

theorem readHead_map (few : count < 2 ^ 32) (rest : Bytes) :
    readHead (packMap count ++ rest) = .done (.container .map count) rest := by
  unfold packMap
  split
  · have byte : (UInt8.ofNat (0x80 + count)).toNat = 0x80 + count := by
      rw [UInt8.toNat_ofNat', mod_eq_of_lt (by omega)]
    have number : (0x80 + count) % 16 = count := by omega
    simp only [cons_append, nil_append, readHead]
    rw [readFrom_map (by omega) (by omega), byte, number]
    rfl
  · split
    next few => exact fixed_store 2 count (fun count => Head.container .map count) few rest
    · exact fixed_store 4 count (fun count => Head.container .map count) few rest

/-! ### Objects -/

def resume (limit fuel : Nat) : Object ⊕ List Frame → Bytes → Reading Object
  | .inl whole, rest => .done whole rest
  | .inr stack, rest => execute limit fuel stack rest

def Takes (limit : Nat) (stack : List Frame) (bytes : Bytes) (object : Object) : Prop :=
  ∃ rounds ≤ bytes.length, ∀ fuel rest,
    execute limit (fuel + rounds) stack (bytes ++ rest) = resume limit fuel (push object stack) rest

variable {object : Object}

theorem takes_head (some : bytes ≠ []) (head : ∀ rest, readHead (bytes ++ rest) = .done (.object object) rest) :
    Takes limit stack bytes object := by
  refine ⟨1, length_pos_iff.mpr some, ?_⟩
  intro fuel rest
  simp only [execute, head, advance]
  cases push object stack with
  | inl whole => rfl
  | inr stack => rfl

theorem takes_items {members : List (Bytes × Object)} (done : List Object) (some : members ≠ [])
    (each : ∀ member ∈ members, ∀ frame, Takes limit (frame :: stack) member.1 member.2) :
    ∃ rounds ≤ (members.flatMap Prod.fst).length, ∀ fuel rest,
      execute limit (fuel + rounds) (.items done members.length :: stack) (members.flatMap Prod.fst ++ rest) =
        resume limit fuel (push (.array (done ++ members.map Prod.snd)) stack) rest := by
  induction members generalizing done with
  | nil => exact absurd rfl some
  | cons member members ih =>
    obtain ⟨first, bound, takes⟩ := each member (mem_cons_self ..) (.items done (members.length + 1))
    cases members with
    | nil =>
      refine ⟨first, by simpa using bound, ?_⟩
      intro fuel rest
      simp only [flatMap_cons, flatMap_nil, append_nil]
      exact takes fuel rest
    | cons next members =>
      obtain ⟨later, laterBound, more⟩ := ih (done ++ [member.2]) (by simp)
        fun other inside => each other (mem_cons_of_mem _ inside)
      refine ⟨later + first, ?_, ?_⟩
      · rw [flatMap_cons, length_append]
        omega
      · intro fuel rest
        rw [← Nat.add_assoc, flatMap_cons, append_assoc, length_cons, takes]
        have more := more fuel rest
        simp only [push, length_cons, append_assoc, singleton_append, map_cons] at more ⊢
        rw [if_neg (by omega)]
        exact more

theorem takes_entries {members : List ((Bytes × Object) × Bytes × Object)} (done : List (Object × Object))
    (some : members ≠ []) (keys : ∀ member ∈ members, ∀ frame, Takes limit (frame :: stack) member.1.1 member.1.2)
    (values : ∀ member ∈ members, ∀ frame, Takes limit (frame :: stack) member.2.1 member.2.2) :
    ∃ rounds ≤ (members.flatMap fun member => member.1.1 ++ member.2.1).length, ∀ fuel rest,
      execute limit (fuel + rounds) (.key done members.length :: stack)
          ((members.flatMap fun member => member.1.1 ++ member.2.1) ++ rest) =
        resume limit fuel (push (.map (done ++ members.map fun member => (member.1.2, member.2.2))) stack) rest := by
  induction members generalizing done with
  | nil => exact absurd rfl some
  | cons member members ih =>
    obtain ⟨⟨keyBytes, key⟩, valueBytes, value⟩ := member
    obtain ⟨first, firstBound, takesKey⟩ := keys _ (mem_cons_self ..) (.key done (members.length + 1))
    obtain ⟨second, secondBound, takesValue⟩ := values _ (mem_cons_self ..) (.value done key (members.length + 1))
    simp only at firstBound secondBound
    cases members with
    | nil =>
      refine ⟨second + first, ?_, ?_⟩
      · simp only [flatMap_cons, flatMap_nil, length_append, length_nil]
        omega
      · intro fuel rest
        simp only [flatMap_cons, flatMap_nil, append_nil, append_assoc, ← Nat.add_assoc]
        exact (takesKey _ _).trans (takesValue _ _)
    | cons next members =>
      obtain ⟨later, laterBound, more⟩ := ih (done ++ [(key, value)]) (by simp)
        (fun other inside => keys other (mem_cons_of_mem _ inside))
        (fun other inside => values other (mem_cons_of_mem _ inside))
      refine ⟨later + second + first, ?_, ?_⟩
      · simp only [flatMap_cons, length_append] at laterBound ⊢
        omega
      · intro fuel rest
        have more := more fuel rest
        simp only [length_cons] at takesKey takesValue more ⊢
        rw [← Nat.add_assoc, ← Nat.add_assoc, flatMap_cons, append_assoc, append_assoc, takesKey]
        simp only [push, resume]
        rw [takesValue]
        simp only [push, append_assoc, singleton_append, map_cons] at more ⊢
        rw [if_neg (by omega)]
        exact more

theorem depth_le_items {item : Object} {items : List Object} (member : item ∈ items) : depth item ≤ depthItems items := by
  induction items with
  | nil => cases member
  | cons first items ih =>
    rw [depthItems]
    rcases mem_cons.mp member with rfl | later
    · exact Nat.le_max_left ..
    · exact Nat.le_trans (ih later) (Nat.le_max_right ..)

theorem depth_le_entries {entry : Object × Object} {entries : List (Object × Object)} (member : entry ∈ entries) :
    depth entry.1 ≤ depthEntries entries ∧ depth entry.2 ≤ depthEntries entries := by
  induction entries with
  | nil => cases member
  | cons first entries ih =>
    obtain ⟨key, value⟩ := first
    rw [depthEntries]
    rcases mem_cons.mp member with rfl | later
    · simp only
      omega
    · have bounds := ih later
      omega

theorem takes_container {kind : Container} {head members : Bytes} (some : head ≠ [])
    (read : ∀ rest, readHead (head ++ rest) = .done (.container kind count) rest) (shallow : stack.length < limit)
    (none : count = 0 → members = [] ∧ object = kind.empty)
    (inside : count ≠ 0 → ∃ rounds ≤ members.length, ∀ fuel rest, execute limit (fuel + rounds) (kind.frame count :: stack) (members ++ rest) = resume limit fuel (push object stack) rest) :
    Takes limit stack (head ++ members) object := by
  have positive := length_pos_iff.mpr some
  have room : ¬ limit ≤ stack.length := Nat.not_le.mpr shallow
  by_cases empty : count = 0
  · obtain ⟨rfl, rfl⟩ := none empty
    refine ⟨1, by rw [append_nil]; exact positive, ?_⟩
    intro fuel rest
    simp only [execute, append_nil, read, advance, room, if_false, empty, if_true]
    cases push kind.empty stack with
    | inl whole => rfl
    | inr stack => rfl
  · obtain ⟨rounds, bound, takes⟩ := inside empty
    refine ⟨rounds + 1, ?_, ?_⟩
    · rw [length_append]
      omega
    · intro fuel rest
      rw [← Nat.add_assoc]
      simp only [execute, append_assoc, read, advance, room, if_false, empty]
      exact takes fuel rest

theorem ne_nil_of_head {head : Head} (read : readHead (bytes ++ []) = .done head []) : bytes ≠ [] := by
  rintro rfl
  cases read

def Encodes (bytes : Bytes) (object : Object) : Prop :=
  ∀ (limit : Nat) (stack : List Frame), stack.length + depth object ≤ limit → Takes limit stack bytes object

theorem Encodes.of_head (read : ∀ rest, readHead (bytes ++ rest) = .done (.object object) rest) :
    Encodes bytes object :=
  fun _ _ _ => takes_head (ne_nil_of_head (read [])) read

theorem Encodes.array {head : Bytes} {members : List (Bytes × Object)}
    (read : ∀ rest, readHead (head ++ rest) = .done (.container .array members.length) rest)
    (each : ∀ member ∈ members, Encodes member.1 member.2) :
    Encodes (head ++ members.flatMap Prod.fst) (.array (members.map Prod.snd)) := by
  intro limit stack fits
  rw [depth] at fits
  apply takes_container (ne_nil_of_head (read [])) read (by omega)
  · intro empty
    obtain rfl := length_eq_zero_iff.mp empty
    exact ⟨rfl, rfl⟩
  · intro some
    apply takes_items [] (fun empty => some (by rw [empty]; rfl))
    intro member inside frame
    have listed : member.2 ∈ members.map Prod.snd := mem_map.mpr ⟨member, inside, rfl⟩
    have bound := depth_le_items listed
    exact each member inside limit _ (by rw [length_cons]; omega)

theorem Encodes.map {head : Bytes} {members : List ((Bytes × Object) × Bytes × Object)}
    (read : ∀ rest, readHead (head ++ rest) = .done (.container .map members.length) rest)
    (keys : ∀ member ∈ members, Encodes member.1.1 member.1.2)
    (values : ∀ member ∈ members, Encodes member.2.1 member.2.2) :
    Encodes (head ++ members.flatMap fun member => member.1.1 ++ member.2.1)
      (.map (members.map fun member => (member.1.2, member.2.2))) := by
  intro limit stack fits
  rw [depth] at fits
  apply takes_container (ne_nil_of_head (read [])) read (by omega)
  · intro empty
    obtain rfl := length_eq_zero_iff.mp empty
    exact ⟨rfl, rfl⟩
  · intro some
    have listed : ∀ member ∈ members,
        depth member.1.2 ≤ depthEntries (members.map fun member => (member.1.2, member.2.2)) ∧
          depth member.2.2 ≤ depthEntries (members.map fun member => (member.1.2, member.2.2)) := by
      intro member inside
      exact depth_le_entries (mem_map_of_mem inside (f := fun member => (member.1.2, member.2.2)))
    apply takes_entries [] (fun empty => some (by rw [empty]; rfl))
    · intro member inside frame
      have bound := (listed member inside).1
      exact keys member inside limit _ (by rw [length_cons]; omega)
    · intro member inside frame
      have bound := (listed member inside).2
      exact values member inside limit _ (by rw [length_cons]; omega)

theorem Encodes.unpack (encodes : Encodes bytes object) (fits : depth object ≤ limit) (rest : Bytes) :
    unpack limit (bytes ++ rest) = .done object rest := by
  obtain ⟨rounds, bound, takes⟩ := encodes limit [] (by simpa using fits)
  have enough : (bytes ++ rest).length = (bytes ++ rest).length - rounds + rounds := by
    rw [length_append]
    omega
  rw [Msgpack.unpack, enough, takes]
  rfl

theorem packItems_eq (items : List Object) : packItems items = items.flatMap pack := by
  induction items with
  | nil => rfl
  | cons item items ih => rw [packItems, ih, flatMap_cons]

theorem packEntries_eq (entries : List (Object × Object)) :
    packEntries entries = entries.flatMap fun entry => pack entry.1 ++ pack entry.2 := by
  induction entries with
  | nil => rfl
  | cons entry entries ih => rw [packEntries, ih, flatMap_cons]

theorem readHead_bin (short : data.length < 2 ^ 32) (rest : Bytes) :
    readHead (packBin data ++ rest) = .done (.object (.bin data)) rest := by
  unfold packBin
  rw [append_assoc]
  split
  next few => exact sized_store 1 .bin data rest few
  · split
    next few => exact sized_store 2 .bin data rest few
    · exact sized_store 4 .bin data rest short

theorem extended_append {type : UInt8} {data : Bytes} (short : data.length + 1 < 2 ^ 32) (rest : Bytes) :
    extended data.length (type :: data ++ rest) = .done (.object (.ext type data)) rest := by
  unfold extended andThen
  rw [mod_eq_of_lt short]
  have whole := trail_append (type :: data) rest
  rw [length_cons] at whole
  rw [whole]
  rfl

theorem readHead_sizedExt (width : Nat) (few : data.length < 256 ^ width) (short : data.length + 1 < 2 ^ 32) :
    andThen (fixed width id) extended (store width data.length ++ (type :: data ++ rest)) =
      .done (.object (.ext type data)) rest := by
  unfold andThen
  rw [fixed_store width data.length id few]
  exact extended_append short rest

theorem readHead_ext (short : data.length + 1 < 2 ^ 32) (rest : Bytes) :
    readHead (packExt data.length type ++ data ++ rest) = .done (.object (.ext type data)) rest := by
  have plain := @extended_append type data short rest
  unfold packExt
  split
  next one => rw [one] at plain; exact plain
  · split
    next two => rw [two] at plain; exact plain
    · split
      next four => rw [four] at plain; exact plain
      · split
        next eight => rw [eight] at plain; exact plain
        · split
          next sixteen => rw [sixteen] at plain; exact plain
          · split
            next few =>
              simp only [cons_append, append_assoc, nil_append]
              exact readHead_sizedExt 1 few short
            · simp only [cons_append, append_assoc]
              split
              next few => exact readHead_sizedExt 2 few short
              · exact readHead_sizedExt 4 (by omega) short

/-- An object that can be packed is read back as it is. -/
theorem encodes_pack (packable : Packable object) : Encodes (pack object) object := by
  induction packable with
  | nil => exact .of_head fun rest => rfl
  | boolean value =>
    apply Encodes.of_head
    intro rest
    cases value with
    | false => rfl
    | true => rfl
  | positive u64 =>
    apply Encodes.of_head
    intro rest
    rw [pack, readHead_unsigned u64.isLt, unsigned, BitVec.ofNat_toNat, BitVec.setWidth_eq]
  | @negative i64 below =>
    apply Encodes.of_head
    intro rest
    rw [pack, readHead_negative below (BitVec.le_toInt i64), BitVec.ofInt_toInt]
  | float32 bits =>
    apply Encodes.of_head
    intro rest
    have read := fixed_store 4 bits.toNat (fun bits => Head.object (.float32 (BitVec.ofNat 32 bits))) bits.isLt rest
    rw [BitVec.ofNat_toNat, BitVec.setWidth_eq] at read
    exact read
  | float64 bits =>
    apply Encodes.of_head
    intro rest
    have read := fixed_store 8 bits.toNat (fun bits => Head.object (.float64 (BitVec.ofNat 64 bits))) bits.isLt rest
    rw [BitVec.ofNat_toNat, BitVec.setWidth_eq] at read
    exact read
  | @bin data short =>
    apply Encodes.of_head
    intro rest
    rw [pack, readHead_bin short]
  | @ext type data short =>
    apply Encodes.of_head
    intro rest
    rw [pack, readHead_ext short]
  | @str text short =>
    apply Encodes.of_head
    intro rest
    rw [pack, readHead_str short]
  | @array items few each ih =>
    have members := @Encodes.array (packArray items.length) (items.map fun item => (pack item, item))
      (by simpa using readHead_array few) (forall_mem_map.mpr ih)
    simpa [pack, packItems_eq, flatMap_map, Function.comp_def] using members
  | @map entries few keys values ihKeys ihValues =>
    have members := @Encodes.map (packMap entries.length)
      (entries.map fun entry => ((pack entry.1, entry.1), pack entry.2, entry.2))
      (by simpa using readHead_map few) (forall_mem_map.mpr ihKeys) (forall_mem_map.mpr ihValues)
    simpa [pack, packEntries_eq, flatMap_map, Function.comp_def] using members

theorem unpack_pack (packable : Packable object) (fits : depth object ≤ limit) (rest : Bytes) :
    unpack limit (pack object ++ rest) = .done object rest :=
  (encodes_pack packable).unpack fits rest

end Msgpack
