import FluentBit.Foundation.Ascii
import Mathlib.Data.List.DropRight

/-! Strings with their length in front, after `src/flb_sds.c`. Allocations succeed, and memory that
nothing was written to holds some byte. -/

set_option autoImplicit false

namespace FluentBit.Strings

open List Nat Ascii

/-- `struct flb_sds`. More bytes than `alloc` and the one behind them are there only if some were
written out of bounds. -/
structure Sds where
  len : Nat
  alloc : Nat
  buf : Bytes
deriving DecidableEq

namespace Sds

def put (buf : Bytes) (offset : Nat) (bytes : Bytes) : Bytes :=
  buf.take offset ++ bytes ++ buf.drop (offset + bytes.length)

def avail (s : Sds) : Nat := s.alloc - s.len

variable (junk : UInt8)

def sdsAlloc (size : Nat) : Sds := { len := 0, alloc := size, buf := 0 :: List.replicate size junk }

def append (s : Sds) (bytes : Bytes) : Sds :=
  { s with len := s.len + bytes.length, buf := put s.buf s.len bytes }

def terminate (s : Sds) : Sds := { s with buf := put s.buf s.len [0] }

/-- `flb_sds_create_len`: a text with its length, or no text and a size. -/
def createLen : Bytes ⊕ Nat → Sds
  | .inl str => terminate (append (sdsAlloc junk str.length) str)
  | .inr len => sdsAlloc junk len

def increase (s : Sds) (len : Nat) : Sds :=
  { s with alloc := s.alloc + len, buf := s.buf ++ List.replicate len junk }

def reserve (s : Sds) (len : Nat) : Sds := if s.avail < len then increase junk s len else s

def cat (s : Sds) (str : Bytes) : Sds := terminate (append (reserve junk s str.length) str)

/-- `flb_sds_trim`: the string and the returned number. -/
def trim (s : Sds) : Sds × Int :=
  -- the length is an `unsigned int`
  let len := s.len % 2 ^ 32
  if len = 0 then (s, 0)
  else
    let left := (s.buf.takeWhile isSpace).length
    if len - 1 < left then ({ s with buf := put s.buf 0 [0] }, -1)
    else
      let right := ((s.buf.take len).rdropWhile isSpace).length - 1
      let content := (s.buf.drop left).take (right - left + 1)
      ({ s with len := content.length, buf := put s.buf 0 (content ++ [0]) }, content.length)

/-- One byte of `flb_sds_cat_esc`. -/
def escaped (esc : Bytes) (c : UInt8) : Bytes :=
  match esc[c.toNat]? with
  | none => [c]
  | some letter => if letter = 0 then [c] else [backslash, letter]

def emit (s : Sds) (piece : Bytes) : Sds := append (reserve junk s 8) piece

/-- `flb_sds_cat_esc`; no escapes are those of an empty table. -/
def catEsc (s : Sds) (str esc : Bytes) : Sds :=
  terminate (str.foldl (fun s c => emit junk s (escaped esc c)) (reserve junk s str.length))

def copy (s : Sds) (str : Bytes) : Sds :=
  let s := if s.alloc < str.length then increase junk s str.length else s
  terminate { s with len := str.length, buf := put s.buf 0 str }

/-- What `vsnprintf` writes at `offset` for the text of a format. -/
def vsnprintf (s : Sds) (offset size : Nat) (text : Bytes) : Sds :=
  { s with buf := if size = 0 then s.buf else put s.buf offset (text.take (size - 1) ++ [0]) }

def print (s : Sds) (text : Bytes) : Sds :=
  let first := vsnprintf s s.len s.avail text
  let s :=
    if s.avail ≤ text.length then
      let s := increase junk first (text.length - s.avail + 1)
      vsnprintf s s.len s.avail text
    else first
  terminate { s with len := s.len + text.length }

/-- `flb_sds_printf` of a format of length `fmt` -/
def printf (s : Sds) (fmt : Nat) (text : Bytes) : Sds :=
  let len := if fmt * 2 < 64 then 64 else fmt * 2
  print junk (if s.avail < len then increase junk s (len - s.avail) else s) text

/-- `flb_sds_snprintf`: the string and the returned number. A text that is longer than `size` is
written a second time, and then it is as long. -/
def snprintf (s : Sds) (size : Nat) (text : Bytes) : Sds × Int :=
  let s := vsnprintf s 0 size text
  let s :=
    if size < text.length then vsnprintf (increase junk s (text.length - size)) 0 text.length text
    else s
  ({ s with len := text.length }, text.length)

/-! ### What a string holds -/

structure Starts (s : Sds) (text : Bytes) : Prop where
  len : s.len = text.length
  size : s.buf.length = s.alloc + 1
  front : text <+: s.buf

structure Holds (s : Sds) (text : Bytes) : Prop where
  len : s.len = text.length
  size : s.buf.length = s.alloc + 1
  front : text ++ [0] <+: s.buf

variable {s : Sds} {text : Bytes}

theorem Holds.starts (holds : Holds s text) : Starts s text :=
  ⟨holds.len, holds.size, (prefix_append text [0]).trans holds.front⟩

theorem Holds.inside (holds : Holds s text) : text.length ≤ s.alloc := by
  have le := holds.front.length_le
  rw [length_append, holds.size] at le
  exact le_of_succ_le_succ le

variable {buf front written more blanks : Bytes} {byte : UInt8}

theorem length_put {bytes : Bytes} {offset : Nat} (inside : offset + bytes.length ≤ buf.length) :
    (put buf offset bytes).length = buf.length := by
  simp only [put, length_append, length_take, length_drop]
  omega

theorem put_front (starts : front <+: buf) (bytes : Bytes) : front ++ bytes <+: put buf front.length bytes := by
  rw [put, ← prefix_iff_eq_take.mp starts]
  exact prefix_append _ _

theorem Starts.append (starts : Starts s text) (bytes : Bytes) (fits : text.length + bytes.length ≤ s.alloc + 1) :
    Starts (s.append bytes) (text ++ bytes) where
  len := by rw [Sds.append, starts.len, length_append]
  size := by
    rw [Sds.append, starts.len]
    exact (length_put (by rwa [starts.size])).trans starts.size
  front := by
    rw [Sds.append, starts.len]
    exact put_front starts.front bytes

section

variable (starts : Starts s text)
include starts

theorem Starts.terminate (fits : text.length ≤ s.alloc) : Holds s.terminate text where
  len := starts.len
  size := by
    rw [Sds.terminate, starts.len]
    exact (length_put (by rw [starts.size]; exact succ_le_succ fits)).trans starts.size
  front := by
    rw [Sds.terminate, starts.len]
    exact put_front starts.front [0]

theorem Starts.increase (len : Nat) : Starts (increase junk s len) text where
  len := starts.len
  size := by
    simp only [Sds.increase, length_append, starts.size, length_replicate]
    omega
  front := starts.front.trans (prefix_append ..)

theorem Starts.reserve (fits : text.length ≤ s.alloc) (len : Nat) :
    Starts (reserve junk s len) text ∧ text.length + len ≤ (reserve junk s len).alloc := by
  have known := starts.len
  unfold Sds.reserve
  split
  next short => exact ⟨starts.increase junk len, Nat.add_le_add_right fits len⟩
  next enough =>
    refine ⟨starts, ?_⟩
    rw [avail, known] at enough
    omega

theorem Starts.emit (fits : text.length ≤ s.alloc) {piece : Bytes} (short : piece.length ≤ 8) :
    Starts (Sds.emit junk s piece) (text ++ piece) ∧ (text ++ piece).length ≤ (Sds.emit junk s piece).alloc := by
  obtain ⟨reserved, room⟩ := starts.reserve junk fits 8
  have inside := (Nat.add_le_add_left short text.length).trans room
  rw [length_append]
  exact ⟨reserved.append piece (le_succ_of_le inside), inside⟩

end

/-! ### Operations -/

theorem holds_createLen (source : Bytes ⊕ Nat) : Holds (createLen junk source) (source.elim id fun _ => []) := by
  have allocated (size : Nat) : Holds (sdsAlloc junk size) [] := by
    refine ⟨rfl, by simp [sdsAlloc], ?_⟩
    exact ⟨List.replicate size junk, rfl⟩
  cases source with
  | inl str =>
    have appended := (allocated str.length).starts.append str (by simp [sdsAlloc])
    exact appended.terminate (by simp [Sds.append, sdsAlloc])
  | inr len => exact allocated len

theorem Holds.cat (holds : Holds s text) (str : Bytes) : Holds (cat junk s str) (text ++ str) := by
  obtain ⟨starts, room⟩ := holds.starts.reserve junk holds.inside str.length
  exact (starts.append str (le_succ_of_le room)).terminate (by rwa [length_append])

theorem Starts.pieces {α : Type} (piece : α → Bytes) (short : ∀ item, (piece item).length ≤ 8) (items : List α)
    (starts : Starts s text) (fits : text.length ≤ s.alloc) :
    Starts (items.foldl (fun s item => Sds.emit junk s (piece item)) s) (text ++ items.flatMap piece) ∧
      (text ++ items.flatMap piece).length ≤ (items.foldl (fun s item => Sds.emit junk s (piece item)) s).alloc := by
  induction items generalizing s text with
  | nil => simpa using ⟨starts, fits⟩
  | cons item items ih =>
    obtain ⟨emitted, room⟩ := starts.emit junk fits (short item)
    simpa using ih emitted room

theorem length_escaped (esc : Bytes) (c : UInt8) : (escaped esc c).length ≤ 8 := by
  unfold escaped
  split
  · simp
  · split <;> simp

theorem Holds.catEsc (holds : Holds s text) (str esc : Bytes) :
    Holds (catEsc junk s str esc) (text ++ str.flatMap (escaped esc)) := by
  obtain ⟨starts, room⟩ := holds.starts.reserve junk holds.inside str.length
  obtain ⟨written, fits⟩ := starts.pieces junk (escaped esc) (length_escaped esc) str ((Nat.le_add_right _ _).trans room)
  exact written.terminate fits

theorem Holds.copy (holds : Holds s text) (str : Bytes) : Holds (copy junk s str) str := by
  have empty (s : Sds) (size : s.buf.length = s.alloc + 1) (fits : str.length ≤ s.alloc) :
      Holds (Sds.terminate { s with len := str.length, buf := put s.buf 0 str }) str := by
    have starts : Starts { s with len := 0 } [] := ⟨rfl, size, nil_prefix⟩
    have written := starts.append str (by simpa using le_succ_of_le fits)
    simpa [Sds.append] using written.terminate fits
  unfold Sds.copy
  split
  · exact empty _ (holds.starts.increase junk str.length).size (Nat.le_add_left _ _)
  next enough => exact empty _ holds.size (Nat.le_of_not_lt enough)

theorem Starts.vsnprintf (starts : Starts s text) (fits : text.length + written.length ≤ s.alloc) {size : Nat}
    (room : written.length < size) :
    Holds { Sds.vsnprintf s s.len size written with len := s.len + written.length } (text ++ written) := by
  have whole : written.take (size - 1) = written := take_of_length_le (by omega)
  have appended := starts.append (written ++ [0]) (by simpa [Nat.add_assoc] using succ_le_succ fits)
  have some : size ≠ 0 := by omega
  simp only [Sds.vsnprintf, some, if_false, whole]
  refine ⟨by simp [starts.len], appended.size, ?_⟩
  rw [append_assoc]
  exact appended.front

theorem Holds.terminated (holds : Holds s text) : Holds s.terminate text := holds.starts.terminate holds.inside

theorem Starts.print (starts : Starts s text) (room : text.length < s.alloc) (written : Bytes) :
    Holds (print junk s written) (text ++ written) := by
  have known := starts.len
  simp only [Sds.print]
  split
  next long =>
    rw [avail, known] at long
    -- the first attempt leaves the text in front as it was
    have cut := starts.append (written.take (s.avail - 1) ++ [0]) (by
      simp only [length_append, length_take, avail, known, length_singleton]
      omega)
    have some : s.avail ≠ 0 := by rw [avail, known]; omega
    have again : Starts (Sds.vsnprintf s s.len s.avail written) text := by
      simp only [Sds.vsnprintf, some, if_false]
      exact ⟨known, cut.size, (prefix_append ..).trans cut.front⟩
    refine ((again.increase junk (written.length - s.avail + 1)).vsnprintf ?_ ?_).terminated
    · simp only [Sds.vsnprintf, Sds.increase, avail, known]
      omega
    · simp only [Sds.vsnprintf, Sds.increase, avail, known]
      omega
  next short =>
    have fits := Nat.lt_of_not_le short
    refine (starts.vsnprintf ?_ fits).terminated
    rw [avail, known] at fits
    omega

theorem Holds.printf (holds : Holds s text) (fmt : Nat) (written : Bytes) :
    Holds (printf junk s fmt written) (text ++ written) := by
  have inside := holds.inside
  have known := holds.len
  have some : 0 < if fmt * 2 < 64 then 64 else fmt * 2 := by split <;> omega
  simp only [Sds.printf]
  generalize (if fmt * 2 < 64 then 64 else fmt * 2) = len at some ⊢
  split
  next short =>
    apply (holds.starts.increase junk _).print
    simp only [Sds.increase, avail, known] at short ⊢
    omega
  next enough =>
    apply holds.starts.print
    simp only [avail, known] at enough
    omega

/-! ### Trimming -/

theorem Holds.unique (holds : Holds s text) {other : Bytes} (also : Holds s other) : text = other := by
  have length : text.length = other.length := holds.len.symm.trans also.len
  rw [prefix_iff_eq_take.mp holds.starts.front, prefix_iff_eq_take.mp also.starts.front, length]

def trimmed (text : Bytes) : Bytes := (text.dropWhile isSpace).rdropWhile isSpace

/-- The part of a text that its length modulo `2 ^ 32` counts has all that is left of the text, and if it
is not empty not only blanks. -/
def Trims (text : Bytes) : Prop :=
  let seen := text.take (text.length % 2 ^ 32)
  if seen = [] then trimmed text = text else (∃ byte ∈ seen, isSpace byte = false) ∧ trimmed seen = trimmed text

theorem rdropWhile_inside (visible : isSpace byte = false) :
    (front ++ byte :: more).rdropWhile isSpace = front ++ (byte :: more).rdropWhile isSpace := by
  have kept : (byte :: more).reverse.dropWhile isSpace ≠ [] := by
    intro empty
    have blank := dropWhile_eq_nil_iff.mp empty byte (by simp)
    rw [visible] at blank
    cases blank
  rw [List.rdropWhile, reverse_append, dropWhile_append, if_neg (by simpa using kept), reverse_append,
    reverse_reverse, List.rdropWhile]

theorem takeWhile_buf (holds : Holds s text) : s.buf.takeWhile isSpace = text.takeWhile isSpace := by
  obtain ⟨rest, parts⟩ := holds.front
  have visible : isSpace 0 = false := by decide
  rw [← parts, append_assoc, takeWhile_append]
  split
  next whole =>
    have all := ( takeWhile_prefix isSpace).eq_of_length whole
    simp [visible, all]
  · rfl

theorem content_eq (holds : Holds s text) {counted : Nat} (seen : text.take counted = blanks ++ byte :: more)
    (visible : isSpace byte = false) (counts : counted ≤ text.length) :
    (s.buf.drop blanks.length).take (((s.buf.take counted).rdropWhile isSpace).length - 1 - blanks.length + 1) =
      (byte :: more).rdropWhile isSpace := by
  obtain ⟨rest, parts⟩ := holds.starts.front
  have part : s.buf.take counted = blanks ++ byte :: more := by
    rw [← parts, take_append_of_le_length counts, seen]
  have nonempty : 0 < ((byte :: more).rdropWhile isSpace).length := by
    rw [length_pos_iff, Ne, rdropWhile_eq_nil_iff]
    intro blank
    have impossible := blank byte (mem_cons_self ..)
    rw [visible] at impossible
    cases impossible
  have here : s.buf.drop blanks.length = byte :: more ++ s.buf.drop counted := by
    have whole := take_append_drop counted s.buf
    rw [part, append_assoc] at whole
    nth_rewrite 1 [← whole]
    exact drop_left
  have front := ( rdropWhile_prefix isSpace _).trans (prefix_append (byte :: more) (s.buf.drop counted))
  have count : blanks.length + ((byte :: more).rdropWhile isSpace).length - 1 - blanks.length + 1 =
      ((byte :: more).rdropWhile isSpace).length := by omega
  rw [part, rdropWhile_inside visible, length_append, count, here]
  exact (prefix_iff_eq_take.mp front).symm

theorem trimmed_blanks (blank : ∀ space ∈ blanks, isSpace space = true) (visible : isSpace byte = false) :
    trimmed (blanks ++ byte :: more) = (byte :: more).rdropWhile isSpace := by
  rw [trimmed, dropWhile_append_of_pos blank, dropWhile_cons_of_neg (by simp [visible])]

theorem length_trimmed : (trimmed text).length ≤ text.length :=
  ( rdropWhile_prefix isSpace _).length_le.trans (dropWhile_suffix isSpace).length_le

theorem holds_front {content : Bytes} (size : s.buf.length = s.alloc + 1) (fits : content.length ≤ s.alloc) :
    Holds { s with len := content.length, buf := put s.buf 0 (content ++ [0]) } content where
  len := rfl
  size := (length_put (by simp [size, fits])).trans size
  front := put_front nil_prefix (content ++ [0])

theorem not_holds_blanks {other : Sds} (counts : other.len = text.length) (blank : text.takeWhile isSpace ≠ []) :
    ¬ Holds other (trimmed text) := by
  intro holds
  have length := congrArg List.length (takeWhile_append_dropWhile (p := isSpace) (l := text))
  have short := ( rdropWhile_prefix isSpace (text.dropWhile isSpace)).length_le
  have some := length_pos_iff.mpr blank
  have same := counts.symm.trans holds.len
  rw [length_append] at length
  rw [trimmed] at same
  omega

theorem holds_trim_iff (holds : Holds s text) : Holds s.trim.1 (trimmed text) ↔ Trims text := by
  have counts := mod_le text.length (2 ^ 32)
  simp only [trim, holds.len, takeWhile_buf holds, Trims]
  generalize text.length % 2 ^ 32 = counted at counts ⊢
  cases Nat.eq_zero_or_pos counted with
  | inl none =>
    simp only [none, if_true, take_zero]
    exact ⟨fun also => also.unique holds, fun same => by rwa [same]⟩
  | inr some =>
    have positive : counted ≠ 0 := Nat.pos_iff_ne_zero.mp some
    have nonempty : text.take counted ≠ [] := by
      intro empty
      have length := congrArg List.length empty
      rw [length_take_of_le counts] at length
      exact positive length
    simp only [positive, if_false, nonempty]
    have parts := takeWhile_append_dropWhile (p := isSpace) (l := text)
    have blank : ∀ space ∈ text.takeWhile isSpace, isSpace space = true := fun _ => mem_takeWhile_imp
    split
    next early =>
      have all : ∀ byte ∈ text.take counted, isSpace byte = true := by
        intro byte member
        rw [← parts, take_append_of_le_length (by omega)] at member
        exact blank byte (mem_of_mem_take member)
      constructor
      · intro impossible
        refine absurd impossible (not_holds_blanks rfl ?_)
        exact length_pos_iff.mp (by omega)
      · rintro ⟨⟨byte, member, visible⟩, _⟩
        rw [all byte member] at visible
        cases visible
    next inside =>
      cases behind : text.dropWhile isSpace with
      | nil =>
        rw [behind, append_nil] at parts
        rw [parts] at inside
        omega
      | cons byte more =>
        have visible : isSpace byte = false := by
          have first := head_dropWhile_not isSpace (l := text) (by simp [behind])
          simpa [behind] using first
        have seen : text.take counted =
            text.takeWhile isSpace ++ byte :: more.take (counted - (text.takeWhile isSpace).length - 1) := by
          nth_rewrite 1 [← parts]
          rw [behind, take_append, take_of_length_le (by omega)]
          obtain ⟨past, count⟩ : ∃ past, counted - (text.takeWhile isSpace).length = past + 1 :=
            ⟨counted - (text.takeWhile isSpace).length - 1, by omega⟩
          rw [count, take_succ_cons, Nat.add_sub_cancel]
        have content := content_eq holds seen visible counts
        have visibleSeen : ∃ byte ∈ text.take counted, isSpace byte = false := ⟨byte, by simp [seen], visible⟩
        rw [content, ← trimmed_blanks blank visible, ← seen]
        have short : (trimmed (text.take counted)).length ≤ s.alloc :=
          length_trimmed.trans ((length_take_le' ..).trans holds.inside)
        have written := holds_front holds.size short
        simp only [visibleSeen, true_and]
        exact ⟨fun also => written.unique also, fun same => by rwa [same] at written ⊢⟩

inductive Call where
  | cat (str : Bytes)
  | trim
  | catEsc (str esc : Bytes)
  | copy (str : Bytes)
  | printf (fmt : Nat) (text : Bytes)

def call (s : Sds) : Call → Sds
  | .cat str => cat junk s str
  | .trim => s.trim.1
  | .catEsc str esc => catEsc junk s str esc
  | .copy str => copy junk s str
  | .printf fmt text => printf junk s fmt text

def textCall (text : Bytes) : Call → Bytes
  | .cat str => text ++ str
  | .trim => trimmed text
  | .catEsc str esc => text ++ str.flatMap (escaped esc)
  | .copy str => str
  | .printf _ written => text ++ written

/-- A string has the text of its calls in every state of a run when every trim finds a text that it can
trim, and only then. -/
theorem holds_text_iff (source : Bytes ⊕ Nat) (calls : List Call) : (∀ front, front <+: calls →
      Holds (front.foldl (call junk) (createLen junk source)) (front.foldl textCall (source.elim id fun _ => []))) ↔
      ∀ front, front ++ [.trim] <+: calls → Trims (front.foldl textCall (source.elim id fun _ => [])) := by
  constructor
  · intro holds front trims
    have before := holds front ((prefix_append ..).trans trims)
    have after := holds _ trims
    rw [foldl_append, foldl_append] at after
    exact (holds_trim_iff before).mp after
  · intro trims front
    induction front using List.reverseRecOn with
    | nil => exact fun _ => holds_createLen junk source
    | append_singleton front last ih =>
      intro inside
      have holds := ih ((prefix_append ..).trans inside)
      rw [foldl_append, foldl_append]
      cases last with
      | cat str => exact holds.cat junk str
      | trim => exact (holds_trim_iff holds).mpr (trims front inside)
      | catEsc str esc => exact holds.catEsc junk str esc
      | copy str => exact holds.copy junk str
      | printf fmt text => exact holds.printf junk fmt text

/-- A string of blanks keeps its length. -/
theorem blanks_not_trimmed : ((createLen 0 (.inl [space])).trim.1.len, (createLen 0 (.inl [space])).trim.2) = (1, -1) ∧
      ¬ Holds (createLen 0 (.inl [space])).trim.1 (trimmed [space]) := by
  refine ⟨by decide, ?_⟩
  intro holds
  exact absurd holds.len (by decide)

theorem put_zero {rest : Bytes} (front : text ++ rest <+: put buf 0 (written ++ [0]))
    (short : written.length < text.length) : 0 ∈ text := by
  have here := (prefix_append text rest).trans front
  rw [put, take_zero, nil_append, append_assoc] at here
  have cut := prefix_of_prefix_length_le (prefix_append written ([0] ++ buf.drop (0 + (written ++ [0]).length)))
    here (Nat.le_of_lt short)
  obtain ⟨behind, rfl⟩ := cut
  cases behind with
  | nil => simp at short
  | cons byte behind =>
    have next := (prefix_append_right_inj written).mp here
    have same := (cons_prefix_cons.mp next).1
    simp [same]

/-- A text of a format is left in the string when it and a zero byte fit into the size and the string,
and else only if nothing is written and nothing has to be. -/
theorem snprintf_iff (holds : Holds s text) {written : Bytes} (noZero : 0 ∉ written) (size : Nat) :
    (Holds (snprintf junk s size written).1 written ∧ (snprintf junk s size written).2 = written.length) ↔
      (written.length < size ∧ written.length ≤ s.alloc) ∨
        (size = 0 ∧ written = [] ∧ (text = [] ∨ text.head? = some 0)) := by
  have cut (count : Nat) (positive : count ≠ 0) (short : count ≤ written.length) (other : Sds) :
      ¬ Holds { Sds.vsnprintf other 0 count written with len := written.length } written := by
    intro holds
    have front := holds.front
    simp only [Sds.vsnprintf, positive, if_false] at front
    refine noZero (put_zero front ?_)
    rw [length_take]
    omega
  simp only [snprintf, and_true]
  split
  next long =>
    have some : written.length ≠ 0 := by omega
    constructor
    · intro impossible
      exact absurd impossible (cut _ some (Nat.le_refl _) _)
    · rintro (⟨fits, _⟩ | ⟨_, rfl, _⟩)
      · omega
      · exact absurd rfl some
  next short =>
    cases Nat.eq_zero_or_pos size with
    | inl none =>
      obtain rfl : written = [] := eq_nil_of_length_eq_zero (by omega)
      obtain ⟨rest, parts⟩ := holds.front
      simp only [Sds.vsnprintf, none, if_true, length_nil, Nat.lt_irrefl, false_and, false_or, true_and]
      constructor
      · intro empty
        obtain ⟨more, front⟩ := empty.front
        rw [← parts] at front
        cases text with
        | nil => exact .inl rfl
        | cons first later => exact .inr (by simpa using (List.cons.inj front).1.symm)
      · intro first
        refine ⟨rfl, holds.size, ?_⟩
        rw [← parts]
        cases text with
        | nil => exact ⟨rest, rfl⟩
        | cons byte later =>
          have zero : byte = 0 := by simpa using first
          exact ⟨later ++ [0] ++ rest, by simp [zero]⟩
    | inr some =>
      have positive : size ≠ 0 := Nat.pos_iff_ne_zero.mp some
      cases Nat.lt_or_ge written.length size with
      | inl fits =>
        have whole : written.take (size - 1) = written := take_of_length_le (by omega)
        simp only [Sds.vsnprintf, positive, if_false, whole, fits, true_and, false_and, or_false]
        exact ⟨fun written => written.inside, holds_front holds.size⟩
      | inr same =>
        constructor
        · intro impossible
          exact absurd impossible (cut size positive same s)
        · rintro (⟨fits, _⟩ | ⟨rfl, _⟩)
          · omega
          · exact absurd rfl positive

theorem snprintf_roomy :
    Holds (snprintf 0 (createLen 0 (.inr 2)) 2 [0x61]).1 [0x61] ∧ (snprintf 0 (createLen 0 (.inr 2)) 2 [0x61]).2 = 1 :=
  (snprintf_iff 0 (holds_createLen 0 (.inr 2)) (by decide) 2).mpr (.inl (by decide))

/-- A text as long as the size loses its last byte, and so does a longer one. -/
theorem snprintf_cut :
    (snprintf 0 (createLen 0 (.inr 2)) 2 [0x61, 0x62]).1 = { len := 2, alloc := 2, buf := [0x61, 0, 0] } ∧
      (snprintf 0 (createLen 0 (.inr 2)) 2 [0x61, 0x62, 0x63]).1 =
        { len := 3, alloc := 3, buf := [0x61, 0x62, 0, 0] } := by
  decide

end Sds

end FluentBit.Strings
