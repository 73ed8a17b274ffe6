import FluentBit.Gzip.Decompressor
import Mathlib.Data.List.TakeWhile

/-! The optional fields of a member, as `flb_gzip_decompressor_process_optional_headers` reads them from
a buffer that may end anywhere. -/

set_option autoImplicit false

namespace FluentBit.Gzip

open List Nat Option
open LittleEndian

section

variable {miniz : Miniz} {context found : Context miniz} {step : Context miniz → Option (Context miniz)}
  {next : Context miniz → Int × Context miniz}

private theorem orWait_some (taken : step context = some found) : orWait step next context = next found := by
  rw [orWait, taken]

private theorem orWait_none (waits : step context = none) : orWait step next context = (insufficientData, context) := by
  rw [orWait, waits]

end

/-! ### A member that can be read -/

structure Member.Framed (member : Member) : Prop where
  comment : member.comment = none
  name : ∀ name ∈ member.name, name ≠ [] ∧ name.length < 2 ^ 16 - 1
  extra : ∀ extra ∈ member.extra, extra.length < 2 ^ 16 - 2

def Member.HeaderRead (member : Member) (miniz : Miniz) : Prop :=
  member.headerCrc = true →
    miniz.crc16 (member.base (flagByte member.text true false false false)) = miniz.crc16 member.header

structure Member.Bare (member : Member) : Prop where
  text : member.text = false
  headerCrc : member.headerCrc = false
  fields : ¬ (member.extra = some [] ∧ member.name = none)

def Member.Left (member : Member) (extra name : Option Bytes) : Prop :=
  (extra = member.extra ∧ name = member.name) ∨ (extra = none ∧ name = member.name) ∨ (extra = none ∧ name = none)

section

variable (member : Member) (miniz : Miniz)

def Member.waiting (stream : miniz.State) (extra name : Option Bytes) (buffer : Bytes) : Context miniz :=
  { state := .expectingOptionalHeaders
    gzipHeader := member.base (flagByte member.text member.headerCrc extra.isSome name.isSome false)
    stream, buffer }

def Member.ahead (extra name : Option Bytes) : Bytes :=
  extraBytes extra ++ (textBytes name ++ (member.crcBytes miniz ++ member.rest))

/-- What becomes of a context that reads the fields, where `unfed` is to come. -/
inductive FieldsRead (unfed : Bytes) : Int × Context miniz → Prop
  | waits {stream : miniz.State} {extra name : Option Bytes} {buffer : Bytes}
      (left : member.Left extra name) (bytes : buffer ++ unfed = member.ahead miniz extra name) (more : unfed ≠ [])
      (notBare : unfed.length = member.rest.length → ¬ member.Bare) :
      FieldsRead unfed (success, member.waiting miniz stream extra name buffer)
  | corrupted {context : Context miniz} (wrong : ¬ member.HeaderRead miniz) : FieldsRead unfed (corruptedHeader, context)
  | body {gzipHeader buffer : Bytes} (bytes : buffer ++ unfed = member.rest) (right : member.HeaderRead miniz)
      (bare : buffer = [] → member.Bare) :
      FieldsRead unfed (success, { state := .expectingBody, gzipHeader, stream := miniz.start, buffer })

end

section

variable {member : Member} {miniz : Miniz} {stream : miniz.State} {extra name : Option Bytes}
  {buffer unfed more : Bytes}

private theorem flagByte_zero : ∀ text crc extra name,
    flagByte text crc extra name false = 0 ↔ text = false ∧ crc = false ∧ extra = false ∧ name = false := by decide

private theorem headerFlags_waiting : (member.waiting miniz stream extra name buffer).headerFlags =
    flagByte member.text member.headerCrc extra.isSome name.isSome false := rfl

private theorem skip_extraFlag :
    ∀ text crc name, flagByte text crc true name false &&& ~~~fextra = flagByte text crc false name false := by
  decide

private theorem skip_nameFlag :
    ∀ text crc, flagByte text crc false true false &&& ~~~fname = flagByte text crc false false false := by
  decide

private theorem skipExtra_none :
    skipExtra (member.waiting miniz stream none name buffer) = some (member.waiting miniz stream none name buffer) :=
  if_pos ((flagByte_extra ..).mpr rfl)

private theorem skipExtra_some {field : Bytes} (small : field.length < 2 ^ 16 - 2)
    (bytes : buffer ++ unfed = extraBytes (some field) ++ more) :
    skipExtra (member.waiting miniz stream (some field) name buffer) =
      if buffer.length ≤ 2 ∨ buffer.length < 2 + field.length then none
      else some (member.waiting miniz stream none name (buffer.drop (2 + field.length))) := by
  have present : ¬ flagByte member.text member.headerCrc true name.isSome false &&& fextra = 0 := by
    rw [flagByte_extra]
    decide
  rw [skipExtra, headerFlags_waiting, isSome_some, if_neg present]
  by_cases few : buffer.length ≤ 2
  · rw [if_pos (Or.inl few), if_pos (show (member.waiting miniz stream (some field) name buffer).buffer.length ≤ 2 from few)]
  · have front : buffer.take 2 = LittleEndian.bytes 2 field.length := by
      have taken := congrArg (List.take 2) bytes
      rwa [take_append_of_le_length (by omega), extraBytes, append_assoc, take_left' (length_bytes 2 _)] at taken
    have xlen : uint16 (2 + readLe16 (member.waiting miniz stream (some field) name buffer).buffer) = 2 + field.length := by
      rw [readLe16, Member.waiting, front, value_bytes (by omega), uint16, mod_eq_of_lt (by omega)]
    rw [if_neg (show ¬ (member.waiting miniz stream (some field) name buffer).buffer.length ≤ 2 from few)]
    simp only [xlen, few, false_or]
    have skipped : (member.waiting miniz stream (some field) name buffer).skip (2 + field.length) fextra =
        member.waiting miniz stream none name (buffer.drop (2 + field.length)) := by
      simp only [Context.skip, headerFlags_waiting, isSome_some, skip_extraFlag]
      rfl
    rw [skipped]
    rfl

private theorem skipName_none :
    skipName (member.waiting miniz stream none none buffer) = some (member.waiting miniz stream none none buffer) :=
  if_pos ((flagByte_name ..).mpr rfl)

private theorem textLength_whole {text : Bytes} (nonzero : (0 : UInt8) ∉ text) : textLength text = text.length := by
  have all : text.takeWhile (· ≠ 0) = text := by
    rw [takeWhile_eq_self_iff]
    intro byte member
    exact decide_eq_true (ne_of_mem_of_not_mem member nonzero)
  rw [textLength, all]

private theorem textLength_zero {text : Bytes} (nonzero : (0 : UInt8) ∉ text) (behind : Bytes) :
    textLength (text ++ 0 :: behind) = text.length := by
  have all : ∀ byte ∈ text, (decide (byte ≠ 0)) = true := by
    intro byte member
    exact decide_eq_true (ne_of_mem_of_not_mem member nonzero)
  rw [textLength, takeWhile_append_of_pos all, takeWhile_cons_of_neg (by simp), append_nil]

private theorem skipName_some {text : Bytes} (nonzero : (0 : UInt8) ∉ text)
    (named : text ≠ [] ∧ text.length < 2 ^ 16 - 1)
    (bytes : buffer ++ unfed = text ++ 0 :: more) :
    skipName (member.waiting miniz stream none (some text) buffer) = if buffer.length ≤ text.length then none
      else some (member.waiting miniz stream none none (buffer.drop (text.length + 1))) := by
  have present : ¬ flagByte member.text member.headerCrc false true false &&& fname = 0 := by
    rw [flagByte_name]
    decide
  rw [skipName, headerFlags_waiting]
  simp only [isSome_none, isSome_some, if_neg present]
  by_cases few : buffer.length ≤ text.length
  · have front : buffer <+: text := by
      have inside : buffer <+: text ++ 0 :: more := ⟨unfed, bytes⟩
      exact prefix_of_prefix_length_le inside (prefix_append text _) few
    have length : textLength (member.waiting miniz stream none (some text) buffer).buffer = buffer.length :=
      textLength_whole fun member => nonzero (front.subset member)
    have xlen : uint16 buffer.length = buffer.length := mod_eq_of_lt (by omega)
    rw [if_pos few, length, xlen]
    exact if_pos (Or.inr rfl)
  · obtain ⟨behind, shape⟩ : ∃ behind, buffer = text ++ 0 :: behind := by
      have inside : text ++ [0] <+: buffer := by
        have whole : text ++ [0] <+: text ++ 0 :: more := ⟨more, by simp⟩
        have fed : buffer <+: text ++ 0 :: more := ⟨unfed, bytes⟩
        apply prefix_of_prefix_length_le whole fed
        simp only [length_append, length_singleton]
        omega
      obtain ⟨behind, equal⟩ := inside
      exact ⟨behind, by rw [← equal, append_assoc]; rfl⟩
    have length : textLength (member.waiting miniz stream none (some text) buffer).buffer = text.length := by
      rw [Member.waiting, shape, textLength_zero nonzero]
    have xlen : uint16 text.length = text.length := mod_eq_of_lt (by omega)
    have next : uint16 (text.length + 1) = text.length + 1 := mod_eq_of_lt (by omega)
    have positive := length_pos_iff.mpr named.1
    have found : ¬ (text.length = 0 ∨ text.length = (member.waiting miniz stream none (some text) buffer).buffer.length) := by
      simp only [Member.waiting]
      omega
    have skipped : (member.waiting miniz stream none (some text) buffer).skip (text.length + 1) fname =
        member.waiting miniz stream none none (buffer.drop (text.length + 1)) := by
      simp only [Context.skip, headerFlags_waiting, isSome_none, isSome_some, skip_nameFlag]
      rfl
    rw [if_neg few, length, xlen, if_neg found, next, skipped]

private theorem awaitMore_waiting : awaitMore (member.waiting miniz stream extra name buffer) =
    if (member.text = true ∨ member.headerCrc = true ∨ extra.isSome = true ∨ name.isSome = true) ∧ buffer = [] then none
    else some (member.waiting miniz stream extra name buffer) := by
  have flags : flagByte member.text member.headerCrc extra.isSome name.isSome false ≠ 0 ↔
      member.text = true ∨ member.headerCrc = true ∨ extra.isSome = true ∨ name.isSome = true := by
    rw [ne_eq, flagByte_zero]
    cases member.text <;> cases member.headerCrc <;> cases extra.isSome <;> cases name.isSome <;> simp
  rw [awaitMore, headerFlags_waiting]
  simp only [flags]
  rfl

private theorem skipComment_waiting : skipComment (member.waiting miniz stream extra name buffer) =
    some (member.waiting miniz stream extra name buffer) :=
  if_pos ((flagByte_comment ..).mpr rfl)

private theorem awaitCrc_waiting : awaitCrc (member.waiting miniz stream none none buffer) =
    if member.headerCrc = true ∧ buffer.length ≤ 2 then none else some (member.waiting miniz stream none none buffer) := by
  have flag : flagByte member.text member.headerCrc false false false &&& fhcrc ≠ 0 ↔ member.headerCrc = true := by
    rw [ne_eq, flagByte_crc, Bool.not_eq_false]
  rw [awaitCrc, headerFlags_waiting]
  simp only [isSome_none, flag]
  rfl

private theorem drop_ahead {front : Bytes} {size : Nat} (bytes : buffer ++ unfed = front ++ more)
    (length : front.length = size)
    (long : size ≤ buffer.length) : buffer.drop size ++ unfed = more := by
  have dropped := congrArg (List.drop size) bytes
  rwa [drop_append_of_le_length long, drop_left' length] at dropped

theorem length_rest : 8 ≤ member.rest.length := by
  rw [Member.rest, length_append, Member.length_footer]
  omega

private theorem fieldsRead_crc (left : member.Left none none) (bytes : buffer ++ unfed = member.ahead miniz none none)
    (fresh : buffer = [] → ¬ (member.extra = some [] ∧ member.name = none)) : FieldsRead member miniz unfed
      ((orWait awaitMore <| orWait skipComment <| orWait awaitMore <| orWait awaitCrc checkCrc)
        (member.waiting miniz stream none none buffer)) := by
  have length := congrArg List.length bytes
  have long := @length_rest member
  simp only [Member.ahead, extraBytes, textBytes, nil_append, length_append] at length
  by_cases early : (member.text = true ∨ member.headerCrc = true) ∧ buffer = []
  · have waits : awaitMore (member.waiting miniz stream none none buffer) = none := by
      rw [awaitMore_waiting, if_pos (by simpa using early)]
    rw [orWait_none waits]
    obtain ⟨flag, rfl⟩ := early
    refine .waits left bytes ?_ ?_
    · intro empty
      rw [empty, length_nil] at length
      omega
    · intro _ bare
      rcases flag with text | crc
      · exact Bool.false_ne_true (bare.text.symm.trans text)
      · exact Bool.false_ne_true (bare.headerCrc.symm.trans crc)
  have goesOn : awaitMore (member.waiting miniz stream none none buffer) =
      some (member.waiting miniz stream none none buffer) := by
    rw [awaitMore_waiting, if_neg (by simpa using early)]
  rw [orWait_some goesOn, orWait_some skipComment_waiting, orWait_some goesOn]
  cases crc : member.headerCrc with
  | false =>
    have taken : awaitCrc (member.waiting miniz stream none none buffer) =
        some (member.waiting miniz stream none none buffer) := by
      rw [awaitCrc_waiting, if_neg (by simp [crc])]
    rw [orWait_some taken]
    have plain : (member.waiting miniz stream none none buffer).headerFlags &&& fhcrc = 0 := (flagByte_crc ..).mpr crc
    rw [checkCrc, if_pos plain]
    have whole : buffer ++ unfed = member.rest := by
      simpa [Member.ahead, extraBytes, textBytes, Member.crcBytes, crc] using bytes
    refine .body whole ?_ ?_
    · intro present
      exact absurd (crc.symm.trans present) Bool.false_ne_true
    · intro empty
      refine ⟨?_, crc, fresh empty⟩
      cases text : member.text with
      | false => rfl
      | true => exact absurd ⟨Or.inl text, empty⟩ early
  | true =>
    have crcBytes : member.crcBytes miniz = LittleEndian.bytes 2 (miniz.crc16 member.header) := by
      rw [Member.crcBytes, crc, if_pos rfl]
    rw [crcBytes, length_bytes] at length
    by_cases few : buffer.length ≤ 2
    · have waits : awaitCrc (member.waiting miniz stream none none buffer) = none := by
        rw [awaitCrc_waiting, if_pos ⟨crc, few⟩]
      rw [orWait_none waits]
      refine .waits left bytes ?_ ?_
      · intro empty
        rw [empty, length_nil] at length
        omega
      · intro _ bare
        exact Bool.false_ne_true (bare.headerCrc.symm.trans crc)
    · have taken : awaitCrc (member.waiting miniz stream none none buffer) =
          some (member.waiting miniz stream none none buffer) := by
        rw [awaitCrc_waiting, if_neg (fun waits => few waits.2)]
      rw [orWait_some taken]
      have flagged : ¬ (member.waiting miniz stream none none buffer).headerFlags &&& fhcrc = 0 := by
        rw [headerFlags_waiting, flagByte_crc, crc]
        decide
      simp only [Member.ahead, extraBytes, textBytes, nil_append, crcBytes] at bytes
      have front : buffer.take 2 = LittleEndian.bytes 2 (miniz.crc16 member.header) := by
        have taken := congrArg (List.take 2) bytes
        rwa [take_append_of_le_length (by omega), take_left' (length_bytes 2 _)] at taken
      have stored : readLe16 (member.waiting miniz stream none none buffer).buffer = miniz.crc16 member.header := by
        rw [readLe16, Member.waiting, front, value_bytes (Member.crc16_lt _)]
      have kept : (member.waiting miniz stream none none buffer).gzipHeader =
          member.base (flagByte member.text true false false false) := by
        rw [Member.waiting, crc]
        rfl
      rw [checkCrc, if_neg flagged, stored, kept]
      by_cases right : miniz.crc16 member.header = miniz.crc16 (member.base (flagByte member.text true false false false))
      · rw [if_neg (not_not_intro right)]
        have whole : buffer.drop 2 ++ unfed = member.rest := drop_ahead bytes (length_bytes 2 _) (by omega)
        refine .body whole (fun _ => right.symm) ?_
        intro empty
        have short : buffer.length ≤ 2 := drop_eq_nil_iff.mp empty
        exact absurd short few
      · rw [if_pos right]
        exact .corrupted fun read => right (read crc).symm

private theorem fieldsRead_name (framed : member.Framed) (valid : member.Valid) (left : member.Left none name)
    (bytes : buffer ++ unfed = member.ahead miniz none name)
    (fresh : buffer = [] → ¬ (member.extra = some [] ∧ member.name = none)) : FieldsRead member miniz unfed
      ((orWait awaitMore <| orWait skipName <| orWait awaitMore <| orWait skipComment <| orWait awaitMore <|
        orWait awaitCrc checkCrc) (member.waiting miniz stream none name buffer)) := by
  have length := congrArg List.length bytes
  have long := @length_rest member
  simp only [Member.ahead, extraBytes, nil_append, length_append] at length
  by_cases early : (member.text = true ∨ member.headerCrc = true ∨ name.isSome = true) ∧ buffer = []
  · have waits : awaitMore (member.waiting miniz stream none name buffer) = none := by
      rw [awaitMore_waiting, if_pos (by simpa using early)]
    rw [orWait_none waits]
    obtain ⟨flag, rfl⟩ := early
    refine .waits left bytes ?_ ?_
    · intro empty
      rw [empty, length_nil] at length
      omega
    · intro same bare
      rcases flag with text | crc | named
      · exact Bool.false_ne_true (bare.text.symm.trans text)
      · exact Bool.false_ne_true (bare.headerCrc.symm.trans crc)
      · obtain ⟨text, rfl⟩ := isSome_iff_exists.mp named
        simp only [textBytes, length_append, length_singleton, length_nil] at length
        omega
  have goesOn : awaitMore (member.waiting miniz stream none name buffer) =
      some (member.waiting miniz stream none name buffer) := by
    rw [awaitMore_waiting, if_neg (by simpa using early)]
  rw [orWait_some goesOn]
  cases name with
  | none =>
    rw [orWait_some skipName_none]
    exact fieldsRead_crc left bytes fresh
  | some text =>
    have given : some text = member.name := by
      rcases left with ⟨-, named⟩ | ⟨-, named⟩ | ⟨-, absent⟩
      · exact named
      · exact named
      · cases absent
    have shape : buffer ++ unfed = text ++ 0 :: (member.crcBytes miniz ++ member.rest) := by
      simpa [Member.ahead, extraBytes, textBytes] using bytes
    have step := @skipName_some member miniz stream _ _ _ _ (valid.name text given.symm) (framed.name text given.symm) shape
    simp only [textBytes, length_append, length_singleton] at length
    by_cases few : buffer.length ≤ text.length
    · rw [if_pos few] at step
      rw [orWait_none step]
      refine .waits left bytes ?_ ?_
      · intro empty
        rw [empty, length_nil] at length
        omega
      · intro same bare
        omega
    · rw [if_neg few] at step
      rw [orWait_some step]
      have cut : text ++ 0 :: (member.crcBytes miniz ++ member.rest) =
          (text ++ [0]) ++ (member.crcBytes miniz ++ member.rest) := by simp
      have behind : buffer.drop (text.length + 1) ++ unfed = member.crcBytes miniz ++ member.rest := by
        rw [cut] at shape
        exact drop_ahead shape (by simp) (by omega)
      exact fieldsRead_crc (Or.inr (Or.inr ⟨rfl, rfl⟩)) behind fun _ fields =>
        some_ne_none text (given.trans fields.2)

/-- The fields in front of the body are read, or more bytes are awaited. -/
theorem processOptionalHeaders_waiting (framed : member.Framed) (valid : member.Valid) (left : member.Left extra name)
    (bytes : buffer ++ unfed = member.ahead miniz extra name)
    (fresh : buffer = [] → extra = member.extra ∧ name = member.name) :
    FieldsRead member miniz unfed (processOptionalHeaders (member.waiting miniz stream extra name buffer)) := by
  rw [processOptionalHeaders]
  cases extra with
  | none =>
    rw [orWait_some skipExtra_none]
    apply fieldsRead_name framed valid left bytes
    intro empty fields
    exact some_ne_none [] (fields.1.symm.trans (fresh empty).1.symm)
  | some field =>
    obtain ⟨given, named⟩ : some field = member.extra ∧ name = member.name := by
      rcases left with whole | ⟨absent, -⟩ | ⟨absent, -⟩
      · exact whole
      · cases absent
      · cases absent
    have step := @skipExtra_some member miniz stream name _ _ _ _ (framed.extra field given.symm) bytes
    have length := congrArg List.length bytes
    have long := @length_rest member
    simp only [Member.ahead, extraBytes, length_append, length_bytes] at length
    by_cases few : buffer.length ≤ 2 ∨ buffer.length < 2 + field.length
    · rw [if_pos few] at step
      rw [orWait_none step]
      refine .waits left bytes ?_ ?_
      · intro empty
        rw [empty, length_nil] at length
        omega
      · intro same bare
        have empty : field = [] := length_eq_zero_iff.mp (by omega)
        have unnamed : name = none := by
          cases name with
          | none => rfl
          | some text =>
            simp only [textBytes, length_append, length_singleton] at length
            omega
        exact bare.fields ⟨by rw [← given, empty], by rw [← named, unnamed]⟩
    · rw [if_neg few] at step
      rw [orWait_some step]
      have behind : buffer.drop (2 + field.length) ++ unfed = member.ahead miniz none name :=
        drop_ahead bytes (by simp [extraBytes]) (by omega)
      apply fieldsRead_name framed valid (Or.inr (Or.inl ⟨rfl, named⟩)) behind
      intro empty fields
      have short := drop_eq_nil_iff.mp empty
      have noField : field = [] := Option.some.inj (given.trans fields.1)
      rw [noField, length_nil] at short
      omega

end

end FluentBit.Gzip
