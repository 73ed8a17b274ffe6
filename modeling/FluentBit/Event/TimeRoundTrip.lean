import FluentBit.Event.Decoder

/-! The time of an event, packed as an extension and read again in three ways. -/

set_option autoImplicit false

namespace FluentBit.Event

open List Nat
open Msgpack (Object Reading load store)

def Time.data (time : Time) : Bytes := store 4 (time.sec.toNat % 2 ^ 32) ++ store 4 (time.nsec.toNat % 2 ^ 32)

section

variable {time : Time} {format : TimeFormat}

theorem timeAppendToMsgpack_ext (ext : format ≠ .int) : timeAppendToMsgpack time format = 0xd7 :: 0 :: time.data := by
  cases format with
  | int => exact absurd rfl ext
  | v0 | v1Ext | v1FixExt => rfl

theorem Time.length_data : time.data.length = 8 := by simp [Time.data]

theorem Time.load_take_data : load (time.data.take 4) = time.sec.toNat % 2 ^ 32 := by
  rw [Time.data, take_left' (Msgpack.length_store ..), Msgpack.load_store]
  exact mod_mod _ _

theorem Time.load_drop_data : load ((time.data.drop 4).take 4) = time.nsec.toNat % 2 ^ 32 := by
  rw [Time.data, drop_left' (Msgpack.length_store ..), take_of_length_le (by simp), Msgpack.load_store]
  exact mod_mod _ _

theorem trail_data (rest : Bytes) : Msgpack.trail 9 (0 :: time.data ++ rest) = .done (0 :: time.data) rest := by
  have length : (0 :: time.data).length = 9 := by simp [Time.length_data]
  unfold Msgpack.trail
  rw [if_neg (by rw [length_append]; omega), take_left' length, drop_left' length]

theorem unpack_time (ext : format ≠ .int) (rest : Bytes) :
    Msgpack.unpack embedStackSize (timeAppendToMsgpack time format ++ rest) = .done (.ext 0 time.data) rest := by
  have head : Msgpack.readHead (0xd7 :: 0 :: time.data ++ rest) = .done (.object (.ext 0 time.data)) rest := by
    change Msgpack.andThen (Msgpack.trail 9) Msgpack.extOf (0 :: time.data ++ rest) = _
    simp only [Msgpack.andThen, trail_data]
    rfl
  rw [timeAppendToMsgpack_ext ext]
  change Msgpack.execute _ _ [] (0xd7 :: 0 :: time.data ++ rest) = _
  simp only [length_append, length_cons, succ_add, Msgpack.execute, head]
  rfl

theorem timeOfBytes_data (sec : time.sec.toNat < 2 ^ 32) (nsec : time.nsec.toNat < 2 ^ 32) :
    timeOfBytes time.data = time := by
  unfold timeOfBytes
  rw [Time.load_take_data, Time.load_drop_data, mod_eq_of_lt sec, mod_eq_of_lt nsec]
  simp

theorem signExtend_eq_iff (number : BitVec 64) (bound : number.toNat < 2 ^ 32) :
    (BitVec.ofNat 32 (number.toNat % 2 ^ 32)).signExtend 64 = number ↔ number.toNat < 2 ^ 31 := by
  have low : (BitVec.ofNat 32 (number.toNat % 2 ^ 32)).toNat = number.toNat := by
    rw [BitVec.toNat_ofNat, mod_mod, mod_eq_of_lt bound]
  rw [← BitVec.toNat_inj, BitVec.toNat_signExtend, BitVec.toNat_setWidth, BitVec.msb_eq_decide, low]
  by_cases small : number.toNat < 2 ^ 31
  · simp only [small, iff_true]
    rw [if_neg (by simp; omega)]
    omega
  · simp only [small, iff_false]
    rw [if_pos (by simp; omega)]
    omega

theorem decodeTimestamp_data (sec : time.sec.toNat < 2 ^ 32) (nsec : time.nsec.toNat < 2 ^ 31) :
    decodeTimestamp (.ext 0 time.data) = .ok time ↔ time.sec.toNat < 2 ^ 31 := by
  have checked : decodeTimestamp (.ext 0 time.data) =
      .ok { sec := int32At time.data 0, nsec := int32At time.data 4 } := by
    simp [decodeTimestamp, Time.length_data]
  have low : int32At time.data 4 = time.nsec := by
    rw [int32At, Time.load_drop_data, signExtend_eq_iff _ (by omega)]
    exact nsec
  rw [checked, low, int32At, drop_zero, Time.load_take_data, ← signExtend_eq_iff _ sec]
  constructor
  · intro same
    injection same with same
    exact congrArg Time.sec same
  · intro same
    rw [same]

end

section

variable {time : Time} (sec : time.sec.toNat < 2 ^ 32) (nsec : time.nsec.toNat < 2 ^ 32) (rest : Bytes)

theorem readTag_time : readTag (0xd7 :: 0 :: time.data ++ rest) = some (.ext 0 8, time.data ++ rest) := rfl

include sec nsec

theorem timeOfTag_time : timeOfTag (.ext 0 8) (time.data ++ rest) = some (time, rest) := by
  have whole : readBytes 8 (time.data ++ rest) = (time.data, rest) := by
    unfold readBytes
    rw [if_neg (by rw [length_append, Time.length_data]; omega), take_left' Time.length_data,
      drop_left' Time.length_data]
  simp only [timeOfTag, whole, timeOfBytes_data sec nsec]
  rfl

theorem timePopFromMpack_time (discard : Bytes → Bytes) :
    timePopFromMpack discard (0x92 :: 0x92 :: 0xd7 :: 0 :: time.data ++ rest) = some (time, discard rest) ∧
      timePopFromMpack discard (0x92 :: 0xd7 :: 0 :: time.data ++ rest) = some (time, rest) := by
  have open2 : ∀ bytes, readTag (0x92 :: bytes) = some (.array 2, bytes) := fun _ => rfl
  constructor
  · simp only [timePopFromMpack, cons_append, open2]
    rw [← cons_append, ← cons_append, readTag_time]
    simp [timeOfTag_time sec nsec]
  · simp only [timePopFromMpack, cons_append, open2]
    rw [← cons_append, ← cons_append, readTag_time]
    simp [timeOfTag_time sec nsec]

end

def Decoder.Carries (context : Decoder) (timestamp : Object) : Prop :=
  ∃ offset metadata body,
    unpackNext context.buffer context.offset = (.success (.array [.array [timestamp, .map metadata], .map body]), offset) ∨
      unpackNext context.buffer context.offset = (.success (.array [timestamp, .map body]), offset)

structure RoundTrip (time : Time) (format : TimeFormat) : Prop where
  msgpack : ∀ rest, ∃ object,
    Msgpack.unpack embedStackSize (timeAppendToMsgpack time format ++ rest) = .done object rest ∧
      timeMsgpackToTime object = some time ∧ decodeTimestamp object = .ok time
  mpack : ∀ (discard : Bytes → Bytes) (rest : Bytes),
    timePopFromMpack discard (0x92 :: 0x92 :: timeAppendToMsgpack time format ++ rest) = some (time, discard rest) ∧
      timePopFromMpack discard (0x92 :: timeAppendToMsgpack time format ++ rest) = some (time, rest)
  normal : ∀ (object : Object) (context : Decoder),
    Msgpack.unpack embedStackSize (timeAppendToMsgpack time format) = .done object [] → context.Carries object →
      ∃ event, context.next.2 = some event ∧ event.timestamp = time ∧ getRecordType event = some .normal

variable {timestamp : Object} {time : Time}

theorem decodeObject_of_carried (isTime : isTimestamp timestamp = true)
    (decoded : decodeTimestamp timestamp = .ok time) (metadata body : List (Object × Object)) :
    (∃ event, decodeObject (.array [.array [timestamp, .map metadata], .map body]) = .ok event ∧
      event.timestamp = time) ∧
    (∃ event, decodeObject (.array [timestamp, .map body]) = .ok event ∧ event.timestamp = time) := by
  constructor
  · simp [decodeObject, decodeParts, isTime, isMap, decoded, Except.map]
  · cases timestamp with
    | nil | boolean | negative | float32 | str | bin | array | map => cases isTime
    | positive | float64 | ext => simp [decodeObject, decodeParts, isTimestamp, isMap, decoded, Except.map]

theorem Decoder.next_of_carries {context : Decoder} (carries : context.Carries timestamp)
    (isTime : isTimestamp timestamp = true) (decoded : decodeTimestamp timestamp = .ok time)
    (positive : 0 ≤ (time.sec.setWidth 32).toInt) :
    ∃ event, context.next.2 = some event ∧ event.timestamp = time ∧ getRecordType event = some .normal := by
  obtain ⟨offset, metadata, body, carries⟩ := carries
  obtain ⟨⟨withHeader, headerOk, headerTime⟩, legacy, legacyOk, legacyTime⟩ :=
    decodeObject_of_carried isTime decoded metadata body
  have normal : ∀ event : LogEvent, event.timestamp = time → getRecordType event = some .normal := by
    intro event same
    simp only [getRecordType, same]
    exact if_pos positive
  have inside : context.buffer.length ≠ 0 := by
    intro empty
    simp [unpackNext, empty] at carries
  cases carries with
  | inl unpacked =>
    refine ⟨withHeader, ?_, headerTime, normal _ headerTime⟩
    simp [Decoder.next, nextWithin, inside, unpacked, headerOk, normal _ headerTime]
  | inr unpacked =>
    refine ⟨legacy, ?_, legacyTime, normal _ legacyTime⟩
    simp [Decoder.next, nextWithin, inside, unpacked, legacyOk, normal _ legacyTime]

/-- The decoder of log events takes the seconds for a number with a sign, the other two do
not: the time comes back from all of them until 2038. -/
theorem roundTrip_iff (time : Time) (format : TimeFormat) (ext : format ≠ .int)
    (sec : 0 ≤ time.sec.toInt ∧ time.sec.toInt < 2 ^ 32) (nsec : 0 ≤ time.nsec.toInt ∧ time.nsec.toInt < 10 ^ 9) :
    RoundTrip time format ↔ time.sec.toInt < 2 ^ 31 := by
  have seconds : time.sec.toInt = time.sec.toNat := by
    have := time.sec.isLt
    rw [BitVec.toInt_eq_toNat_cond] at sec ⊢
    split at sec
    next small => rw [if_pos small]
    · omega
  have nanoseconds : time.nsec.toInt = time.nsec.toNat := by
    have := time.nsec.isLt
    rw [BitVec.toInt_eq_toNat_cond] at nsec ⊢
    split at nsec
    next small => rw [if_pos small]
    · omega
  rw [seconds] at sec ⊢
  rw [nanoseconds] at nsec
  have secBound : time.sec.toNat < 2 ^ 32 := by omega
  have nsecBound : time.nsec.toNat < 2 ^ 31 := by omega
  have decodes := decodeTimestamp_data secBound nsecBound
  constructor
  · intro trip
    obtain ⟨object, unpacked, -, decoded⟩ := trip.msgpack []
    rw [unpack_time ext] at unpacked
    cases unpacked
    have := decodes.mp decoded
    omega
  · intro early
    have decoded := decodes.mpr (by omega)
    constructor
    · intro rest
      refine ⟨.ext 0 time.data, unpack_time ext rest, ?_, decoded⟩
      simp [timeMsgpackToTime, Time.length_data, timeOfBytes_data secBound (by omega)]
    · intro discard rest
      rw [timeAppendToMsgpack_ext ext]
      exact timePopFromMpack_time secBound (by omega) rest discard
    · intro object context unpacked carries
      have same : Msgpack.unpack embedStackSize (timeAppendToMsgpack time format ++ []) = _ := unpack_time ext []
      rw [append_nil, unpacked] at same
      cases same
      apply Decoder.next_of_carries carries rfl decoded
      rw [BitVec.toInt_eq_toNat_cond, BitVec.toNat_setWidth, if_pos (by omega)]
      omega

theorem roundTrip_one_second : RoundTrip { sec := 1, nsec := 999999999 } .v1FixExt :=
  (roundTrip_iff _ _ (by decide) (by decide) (by decide)).mpr (by decide)

/-- A second after the last one that has no sign, the record cannot be read. -/
theorem not_roundTrip_2038 : ¬ RoundTrip { sec := 0x80000000, nsec := 0 } .v1FixExt ∧
      (Decoder.next { buffer := 0x92 :: 0x92 :: timeAppendToMsgpack { sec := 0x80000000, nsec := 0 } .v1FixExt ++
        [0x80, 0x80] }).1.lastResult = .deserializationFailure := by
  refine ⟨?_, by decide +kernel⟩
  intro trip
  obtain ⟨object, unpacked, -, decoded⟩ := trip.msgpack []
  rw [unpack_time (by decide)] at unpacked
  cases unpacked
  injection decoded with decoded
  exact absurd (congrArg Time.sec decoded) (by decide)

end FluentBit.Event
