import FluentBit.Event.Decoder
import Mathlib.Data.List.TakeWhile

/-! The check of a chunk and the reader of its events, over the same bytes. -/

set_option autoImplicit false

namespace FluentBit.Event

open List Nat Option
open Msgpack (Object Reading load)

def timestampOf : Object → Object
  | .array [.array [ts, _], _] => ts
  | .array [ts, _] => ts
  | object => object

def acceptedTimestamp : Object → Bool
  | .positive u64 => -2 ≤ (u64.setWidth 32).toInt
  | .float64 bits => -2 ≤ ((Binary64.toInt64 bits).setWidth 32).toInt
  | .ext type data => type = 0 ∧ data.length = 8 ∧ -2 ≤ (BitVec.ofNat 32 (load (data.take 4))).toInt
  | _ => false

inductive Leading : Bytes → Object → Prop where
  | here {bytes rest : Bytes} {record : Object} :
      Msgpack.unpack embedStackSize bytes = .done record rest → validRecord record = true → Leading bytes record
  | later {bytes rest : Bytes} {first record : Object} :
      Msgpack.unpack embedStackSize bytes = .done first rest → validRecord first = true → Leading rest record →
        Leading bytes record

/-- Over the bytes that the check has processed the reader meets as many events, and no
error up to their end. -/
structure Agrees (data : Bytes) : Prop where
  count : (events (data.take (validateLogChunk data).processed)).1.length = (validateLogChunk data).records
  result : (events (data.take (validateLogChunk data).processed)).2.getLastResult = .success
  offset : (events (data.take (validateLogChunk data).processed)).2.offset = (validateLogChunk data).processed

theorem setWidth_signExtend (number : BitVec 32) : (number.signExtend 64).setWidth 32 = number := by
  ext index small
  rw [BitVec.getElem_setWidth, BitVec.getLsbD_signExtend, if_pos small]
  simp [small]
  omega

theorem getRecordType_isSome (event : LogEvent) :
    (getRecordType event).isSome = decide (-2 ≤ (event.timestamp.sec.setWidth 32).toInt) := by
  unfold getRecordType
  generalize (event.timestamp.sec.setWidth 32).toInt = s
  dsimp only
  split
  next positive => simp only [isSome_some, true_eq_decide_iff]; omega
  · split
    next start => simp [start]
    · split
      next ended => simp [ended]
      · simp only [isSome_none, false_eq_decide_iff]; omega

variable {ts record : Object} {records : List Object} {bytes : Bytes} {off fuel : Nat} {context : Decoder}

theorem acceptedTimestamp_of_error {error : Result} (decoded : decodeTimestamp ts = .error error) :
    acceptedTimestamp ts = false := by
  cases ts with
  | nil | boolean | negative | float32 | str | bin | array | map => rfl
  | positive | float64 => cases decoded
  | ext type data =>
    simp only [decodeTimestamp] at decoded
    split at decoded
    next wrong =>
      simp only [acceptedTimestamp, decide_eq_false_iff_not]
      rintro ⟨isEventTime, eight, -⟩
      exact wrong.elim (fun other => other isEventTime) (fun other => other eight)
    · cases decoded

theorem acceptedTimestamp_of_ok {time : Time} (decoded : decodeTimestamp ts = .ok time) :
    acceptedTimestamp ts = decide (-2 ≤ (time.sec.setWidth 32).toInt) := by
  cases ts with
  | nil | boolean | negative | float32 | str | bin | array | map => cases decoded
  | positive | float64 =>
    cases decoded
    rfl
  | ext type data =>
    simp only [decodeTimestamp] at decoded
    split at decoded
    · cases decoded
    next right =>
      rw [not_or, not_not, not_not] at right
      cases decoded
      simp [acceptedTimestamp, int32At, setWidth_signExtend, right]

theorem decodeObject_of_valid (valid : validRecord record = true) :
    ∃ make : Time → LogEvent, (∀ time, (make time).timestamp = time) ∧
      decodeObject record = (decodeTimestamp (timestampOf record)).map make := by
  unfold validRecord at valid
  split at valid
  next ts metadata body =>
    simp only [Bool.and_eq_true] at valid
    exact ⟨fun time =>
        { timestamp := time, rawTimestamp := ts, metadata, body, root := .array [.array [ts, metadata], body],
          format := .fluentBitV2 },
      fun _ => rfl, by simp [decodeObject, decodeParts, valid, timestampOf]⟩
  · cases valid
  next ts body other anyOther =>
    simp only [Bool.and_eq_true] at valid
    have headless : ∀ items, ts ≠ .array items := by
      rintro items rfl
      exact anyOther items rfl
    have emptyMap : isMap (.map []) = true := rfl
    refine ⟨fun time =>
        { timestamp := time, rawTimestamp := ts, metadata := .map [], body, root := .array [ts, body],
          format := .forward },
      fun _ => rfl, ?_⟩
    cases ts with
    | array items => exact absurd rfl (headless items)
    | nil | boolean | positive | negative | float32 | float64 | str | bin | ext | map =>
      simp [decodeObject, decodeParts, valid, emptyMap, timestampOf]
  · cases valid

inductive Filled : Bytes → List Object → Prop where
  | nil : Filled [] []
  | cons {piece bytes : Bytes} {record : Object} {records : List Object} :
      0 < piece.length → (∀ more, Msgpack.unpack embedStackSize (piece ++ more) = .done record more) →
        validRecord record = true → Filled bytes records → Filled (piece ++ bytes) (record :: records)

theorem Filled.length_le (filled : Filled bytes records) : records.length ≤ bytes.length := by
  induction filled with
  | nil => exact Nat.le_refl _
  | cons nonempty _ _ _ ih => rw [length_append, length_cons]; omega

def Ended (rest : Bytes) : Prop :=
  ∀ record behind, Msgpack.unpack embedStackSize rest = .done record behind → validRecord record = false

theorem Filled.leading {rest : Bytes} (filled : Filled bytes records) (ended : Ended rest) (record : Object) :
    Leading (bytes ++ rest) record ↔ record ∈ records := by
  induction filled with
  | nil =>
    constructor
    · intro leading
      cases leading with
      | here unpacked valid | later unpacked valid _ => exact absurd valid (by simp [ended _ _ unpacked])
    · intro member
      cases member
  | @cons piece bytes first records nonempty unpacks valid filled ih =>
    have unpacked := unpacks (bytes ++ rest)
    rw [← append_assoc] at unpacked
    constructor
    · intro leading
      cases leading with
      | here again _ =>
        rw [unpacked] at again
        cases again
        exact mem_cons_self
      | later again _ leading =>
        rw [unpacked] at again
        cases again
        exact mem_cons_of_mem _ (ih.mp leading)
    · intro member
      cases member with
      | head => exact .here unpacked valid
      | tail _ member => exact .later unpacked valid (ih.mpr member)

theorem unpackNext_append_success {before : Bytes} {object : Object}
    (found : unpackNext (before ++ bytes) before.length = (.success object, off)) :
    ∃ rest, Msgpack.unpack embedStackSize bytes = .done object rest := by
  simp only [unpackNext, drop_left] at found
  split at found
  · cases found
  · split at found
    next data rest unpacked =>
      cases found
      exact ⟨rest, unpacked⟩
    · cases found
    · cases found

theorem isArray_of_valid (valid : validRecord record = true) : isArray record = true := by
  cases record with
  | array => rfl
  | nil | boolean | positive | negative | float32 | float64 | str | bin | ext | map => cases valid

theorem validateWithin_filled (count : Nat) (before bytes : Bytes) (enough : bytes.length < fuel) :
    ∃ used records rest, bytes = used ++ rest ∧ Filled used records ∧ Ended rest ∧
      (validateWithin (before ++ bytes) fuel count before.length before.length).records = count + records.length ∧
      (validateWithin (before ++ bytes) fuel count before.length before.length).processed =
        before.length + used.length := by
  induction fuel generalizing count before bytes with
  | zero => omega
  | succ fuel ih =>
    cases unpacked : Msgpack.unpack embedStackSize bytes with
    | short rest | bad =>
      refine ⟨[], [], bytes, rfl, .nil, ?_, ?_⟩
      · intro record behind again
        rw [unpacked] at again
        cases again
      · simp only [validateWithin]
        split
        next object off found =>
          obtain ⟨rest, again⟩ := unpackNext_append_success found
          rw [unpacked] at again
          cases again
        · exact ⟨rfl, rfl⟩
    | done object rest =>
      obtain ⟨piece, rfl, nonempty, unpacks⟩ := Msgpack.unpack_stable unpacked
      have next := unpackNext_append before (piece ++ rest) (by
        intro empty
        rw [append_eq_nil_iff.mp empty |>.1] at nonempty
        exact absurd nonempty (by decide)) unpacked
      by_cases valid : validRecord object = true
      · obtain ⟨used, records, rest, rfl, filled, ended, counted, processed⟩ :=
          ih (count + 1) (before ++ piece) rest (by rw [length_append] at enough; omega)
        have offset : (before ++ (piece ++ (used ++ rest))).length - (used ++ rest).length =
            (before ++ piece).length := by
          simp only [length_append]
          omega
        refine ⟨piece ++ used, object :: records, rest, (append_assoc ..).symm,
          .cons nonempty unpacks valid filled, ended, ?_⟩
        simp only [validateWithin, next, isArray_of_valid valid, valid, offset, Bool.not_true, Bool.false_eq_true,
          if_false, if_true]
        rw [append_assoc] at counted processed
        rw [counted, processed]
        simp only [length_append, length_cons]
        omega
      · refine ⟨[], [], piece ++ rest, rfl, .nil, ?_, ?_⟩
        · intro record behind again
          rw [unpacked] at again
          cases again
          exact Bool.eq_false_iff.mpr valid
        · simp only [validateWithin, next, valid, Bool.false_eq_true, if_false]
          split
          all_goals exact ⟨rfl, rfl⟩

theorem next_of_record (groups : context.readGroups = true)
    (unpacked : unpackNext context.buffer context.offset = (.success record, off)) (valid : validRecord record = true) :
    (acceptedTimestamp (timestampOf record) = true →
      ∃ after event, context.next = (after, some event) ∧ after.buffer = context.buffer ∧ after.offset = off ∧
        after.readGroups = true) ∧ (acceptedTimestamp (timestampOf record) = false → context.next.2 = none) := by
  have inside : context.buffer.length ≠ 0 := by
    intro empty
    simp [unpackNext, empty] at unpacked
  obtain ⟨make, timed, decoded⟩ := decodeObject_of_valid valid
  cases found : decodeTimestamp (timestampOf record) with
  | error error =>
    have refused := acceptedTimestamp_of_error found
    rw [found] at decoded
    constructor
    · intro accepted
      rw [refused] at accepted
      cases accepted
    · intro _
      simp [Decoder.next, nextWithin, inside, unpacked, decoded, Except.map, Decoder.fail]
  | ok time =>
    have known := getRecordType_isSome (make time)
    rw [timed, ← acceptedTimestamp_of_ok found] at known
    rw [found] at decoded
    constructor
    · intro accepted
      rw [accepted] at known
      obtain ⟨type, typed⟩ := isSome_iff_exists.mp known
      simp [Decoder.next, nextWithin, inside, unpacked, decoded, Except.map, typed, groups]
    · intro refused
      rw [refused] at known
      have untyped := isSome_eq_false_iff.mp known
      rw [isNone_iff_eq_none] at untyped
      simp [Decoder.next, nextWithin, inside, unpacked, decoded, Except.map, untyped, Decoder.fail]

theorem next_at_end (ended : context.offset = context.buffer.length) :
    context.next.2 = none ∧ context.next.1.getLastResult = .success ∧
      context.next.1.offset = context.buffer.length := by
  unfold Decoder.next nextWithin
  split
  · simp [Decoder.fail, Decoder.getLastResult, ended]
  · have more : unpackNext context.buffer context.offset = (.more, context.offset) := by
      simp [unpackNext, ended]
    simp only [more]
    simp [Decoder.fail, Decoder.getLastResult, ended]

theorem eventsWithin_filled (filled : Filled bytes records) (enough : records.length < fuel) (before : Bytes)
    (context : Decoder) (whole : context.buffer = before ++ bytes) (start : context.offset = before.length)
    (groups : context.readGroups = true) : (eventsWithin fuel context).1.length =
        (records.takeWhile fun record => acceptedTimestamp (timestampOf record)).length ∧
      ((∀ record ∈ records, acceptedTimestamp (timestampOf record) = true) →
        (eventsWithin fuel context).2.getLastResult = .success ∧
          (eventsWithin fuel context).2.offset = context.buffer.length) := by
  induction filled generalizing fuel before context with
  | nil =>
    have ended : context.offset = context.buffer.length := by simp [start, whole]
    obtain ⟨none, result, offset⟩ := next_at_end ended
    cases fuel with
    | zero => exact absurd enough (Nat.not_lt_zero _)
    | succ fuel =>
      cases stepped : context.next with
      | mk after event =>
        rw [stepped] at none result offset
        cases none
        simp only [eventsWithin, stepped]
        exact ⟨rfl, fun _ => ⟨result, offset⟩⟩
  | @cons piece bytes record records nonempty unpacks valid filled ih =>
    have unpacked : unpackNext context.buffer context.offset = (.success record, before.length + piece.length) := by
      have next := unpackNext_append before (piece ++ bytes) (by
        intro empty
        rw [(append_eq_nil_iff.mp empty).1] at nonempty
        exact absurd nonempty (by decide)) (unpacks bytes)
      rw [whole, start, next]
      simp only [length_append, Prod.mk.injEq, true_and]
      omega
    obtain ⟨accept, refuse⟩ := next_of_record groups unpacked valid
    cases fuel with
    | zero => exact absurd enough (Nat.not_lt_zero _)
    | succ fuel =>
      cases accepted : acceptedTimestamp (timestampOf record) with
      | true =>
        obtain ⟨after, event, stepped, sameBuffer, offset, sameGroups⟩ := accept accepted
        obtain ⟨count, final⟩ := ih (lt_of_succ_lt_succ enough) (before ++ piece) after
          (by rw [sameBuffer, whole, append_assoc]) (by rw [offset, length_append]) sameGroups
        simp only [eventsWithin, stepped, takeWhile_cons, accepted, if_true, length_cons, count]
        rw [sameBuffer] at final
        exact ⟨trivial, fun all => final fun record member => all record (mem_cons_of_mem _ member)⟩
      | false =>
        have stopped := refuse accepted
        cases stepped : context.next with
        | mk after event =>
          rw [stepped] at stopped
          cases stopped
          simp only [eventsWithin, stepped, takeWhile_cons, accepted, Bool.false_eq_true, if_false]
          refine ⟨rfl, fun all => ?_⟩
          rw [all record mem_cons_self] at accepted
          cases accepted

/-- The two agree over a chunk where the reader takes the timestamp of each record that the
check passes, and only there. -/
theorem agrees_iff_accepted (data : Bytes) :
    Agrees data ↔ ∀ record, Leading data record → acceptedTimestamp (timestampOf record) = true := by
  obtain ⟨used, records, rest, rfl, filled, ended, counted, processed⟩ :=
    validateWithin_filled 0 [] data (lt_succ_self data.length)
  simp only [nil_append, length_nil, Nat.zero_add] at counted processed
  have prefixed : (used ++ rest).take (validateLogChunk (used ++ rest)).processed = used := by
    rw [validateLogChunk, processed, take_left]
  have enough : records.length < used.length + 1 := lt_succ_of_le filled.length_le
  obtain ⟨count, final⟩ := eventsWithin_filled filled enough [] { buffer := used } rfl rfl rfl
  have leading := filled.leading ended
  constructor
  · intro agrees record found
    have whole : (records.takeWhile fun record => acceptedTimestamp (timestampOf record)).length = records.length := by
      rw [← count, ← counted]
      have := agrees.count
      rwa [prefixed] at this
    have same := ( takeWhile_prefix _).eq_of_length whole
    rw [takeWhile_eq_self_iff] at same
    exact same record ((leading record).mp found)
  · intro accepted
    have all : ∀ record ∈ records, acceptedTimestamp (timestampOf record) = true :=
      fun record member => accepted record ((leading record).mpr member)
    have same := takeWhile_eq_self_iff.mpr all
    rw [same] at count
    constructor
    · rw [prefixed, validateLogChunk, counted]
      exact count
    · rw [prefixed]
      exact (final all).1
    · rw [prefixed, validateLogChunk, processed]
      exact (final all).2

/-- A record with an extension of another type passes the check, and is no event. -/
theorem not_agrees_ext_type_one :
    validateLogChunk [0x92, 0xd4, 1, 0, 0x80] = { ok := true, records := 1, processed := 5 } ∧
      (events [0x92, 0xd4, 1, 0, 0x80]).1.length = 0 ∧
      (events [0x92, 0xd4, 1, 0, 0x80]).2.getLastResult = .wrongTimestampType ∧ ¬ Agrees [0x92, 0xd4, 1, 0, 0x80] := by
  refine ⟨by decide +kernel, by decide +kernel, by decide +kernel, ?_⟩
  intro agrees
  exact absurd agrees.count (by decide +kernel)

end FluentBit.Event
