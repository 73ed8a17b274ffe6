import FluentBit.Foundation.Reading
import FluentBit.Gzip.Decompressor

/-! What `flb_gzip_uncompress` reads of its buffer. The pointer into it is an index here, and every byte
is read at its place. -/

set_option autoImplicit false

namespace FluentBit.Gzip

open List Option Reading

/-- `read_le16` -/
def readLe16At (start : Nat) : Reading UInt8 Nat := do
  let p ← cells start 2
  return readLe16 p

/-- `read_le32` -/
def readLe32At (start : Nat) : Reading UInt8 Nat := do
  let p ← cells start 4
  return readLe32 p

def skipTextAt (inLen start : Nat) : Reading UInt8 (Option Nat) :=
  if _inside : start < inLen then do
    let byte ← Reading.cell start
    if byte = 0 then pure (some (start + 1)) else skipTextAt inLen (start + 1)
  else pure none
termination_by inLen - start

def skipExtraFieldAt (inLen start : Nat) : Reading UInt8 (Option Nat) := do
  let xlen ← readLe16At start
  return if inLen - 12 < xlen then none else some (start + (xlen + 2))

def skipHeaderCrcAt (miniz : Miniz) (inLen start : Nat) : Reading UInt8 (Option Nat) :=
  if inLen - 2 < start then pure none
  else do
    let hcrc ← readLe16At start
    let header ← cells 0 start
    return if hcrc ≠ miniz.crc16 header then none else some (start + 2)

def optionalField (flg mask : UInt8) (skip : Nat → Reading UInt8 (Option Nat)) : Option Nat → Reading UInt8 (Option Nat)
  | none => pure none
  | some start => if flg &&& mask = 0 then pure (some start) else skip start

def skipFieldsAt (miniz : Miniz) (inLen : Nat) (flg : UInt8) : Reading UInt8 (Option Nat) :=
  pure (some headerSize) >>= optionalField flg fextra (skipExtraFieldAt inLen) >>=
    optionalField flg fname (skipTextAt inLen) >>= optionalField flg fcomment (skipTextAt inLen) >>=
    optionalField flg fhcrc (skipHeaderCrcAt miniz inLen)

def uncompressFrom (miniz : Miniz) (inLen start : Nat) : Reading UInt8 (Option Bytes) := do
  let dlen ← readLe32At (inLen - 4)
  if 100000000 < dlen then pure none
  else do
    let crc ← readLe32At (inLen - 8)
    if dlen = 0 then pure none
    else if inLen - start ≤ 8 then pure none
    else do
      let zip ← cells start (inLen - start - 8)
      let result := miniz.run miniz.start zip dlen .finish
      if result.status ≠ .streamEnd then pure none
      else if result.output.length ≠ dlen then pure none
      else if (miniz.crc32 result.output).toNat ≠ crc then pure none
      else pure (some result.output)

/-- `flb_gzip_uncompress`; no text stands for its result -1. -/
def uncompressAt (miniz : Miniz) (inLen : Nat) : Reading UInt8 (Option Bytes) :=
  if inLen < 18 then pure none
  else do
    let first ← Reading.cell 0
    if first ≠ 0x1f then pure none
    else do
      let second ← Reading.cell 1
      if second ≠ 0x8b then pure none
      else do
        let method ← Reading.cell 2
        if method ≠ 8 then pure none
        else do
          let flg ← Reading.cell 3
          if flg &&& 0xe0 ≠ 0 then pure none
          else do
            let start ← skipFieldsAt miniz inLen flg
            match start with
            | none => pure none
            | some start => uncompressFrom miniz inLen start

def TextEnd (memory : Nat → UInt8) (start finish : Nat) : Prop :=
  start < finish ∧ memory (finish - 1) = 0 ∧ ∀ place, start ≤ place → place + 1 < finish → memory place ≠ 0

def FieldsEnd (memory : Nat → UInt8) (finish : Nat) : Prop :=
  ∃ extraEnd nameEnd commentEnd,
    extraEnd = (if memory 3 &&& fextra = 0 then 10 else 12 + ((memory 10).toNat + 256 * (memory 11).toNat)) ∧
      (if memory 3 &&& fname = 0 then nameEnd = extraEnd else TextEnd memory extraEnd nameEnd) ∧
      (if memory 3 &&& fcomment = 0 then commentEnd = nameEnd else TextEnd memory nameEnd commentEnd) ∧
      finish = commentEnd + if memory 3 &&& fhcrc = 0 then 0 else 2

def buffer (memory : Nat → UInt8) (inLen : Nat) : Bytes := (List.range inLen).map memory

variable {memory : Nat → UInt8} {miniz : Miniz} {inLen start : Nat}

@[simp] theorem length_buffer : (buffer memory inLen).length = inLen := by
  simp [buffer]

private theorem buffer_drop : (buffer memory inLen).drop start = (List.range' start (inLen - start)).map memory := by
  rw [buffer, ← map_drop, range_eq_range', drop_range', Nat.zero_add, Nat.mul_one]

private theorem buffer_drop_take {count : Nat} (inside : start + count ≤ inLen) :
    ((buffer memory inLen).drop start).take count = (List.range' start count).map memory := by
  rw [buffer_drop, ← map_take, take_range'_of_length_ge (by omega)]

private theorem buffer_drop_cons (inside : start < inLen) :
    (buffer memory inLen).drop start = memory start :: (buffer memory inLen).drop (start + 1) := by
  obtain ⟨more, remains⟩ : ∃ more, inLen - start = more + 1 := ⟨inLen - start - 1, by omega⟩
  have less : inLen - (start + 1) = more := by omega
  rw [buffer_drop, buffer_drop, remains, less, List.range'_succ, map_cons]

/-! ### One field -/

private theorem within_readLe16At (inside : start + 2 ≤ inLen) : (readLe16At start).Within memory inLen := by
  rw [readLe16At, within_bind]
  exact ⟨within_cells inside, within_pure _⟩

private theorem value_readLe16At (inside : start + 2 ≤ inLen) :
    (readLe16At start).value memory = readLe16 ((buffer memory inLen).drop start) := by
  rw [readLe16At, value_bind, value_cells, value_pure, readLe16, readLe16, buffer_drop_take inside,
    take_of_length_le (by simp)]

private theorem within_readLe32At (inside : start + 4 ≤ inLen) : (readLe32At start).Within memory inLen := by
  rw [readLe32At, within_bind]
  exact ⟨within_cells inside, within_pure _⟩

private theorem value_readLe32At (inside : start + 4 ≤ inLen) :
    (readLe32At start).value memory = readLe32 ((buffer memory inLen).drop start) := by
  rw [readLe32At, value_bind, value_cells, value_pure, readLe32, readLe32, buffer_drop_take inside,
    take_of_length_le (by simp)]

/-- A step that reads in the buffer only and finds a place in it, where `rest` begins. -/
structure Steps (memory : Nat → UInt8) (inLen : Nat) (step : Reading UInt8 (Option Nat)) (rest : Option Bytes)
    (ends : Nat → Prop) : Prop where
  within : step.Within memory inLen
  inside : ∀ next ∈ step.value memory, next ≤ inLen ∧ ends next
  same : rest = (step.value memory).map (buffer memory inLen).drop

private theorem skipTextAt_steps :
    Steps memory inLen (skipTextAt inLen start) (skipText ((buffer memory inLen).drop start)) (TextEnd memory start) := by
  induction start using skipTextAt.induct inLen with
  | case1 start inside ih =>
    rw [skipTextAt, dif_pos inside, buffer_drop_cons inside, skipText]
    by_cases zero : memory start = 0
    · refine ⟨?_, ?_, ?_⟩
      · rw [within_read, if_pos zero]
        exact ⟨inside, within_pure _⟩
      · rw [value_read, if_pos zero]
        intro next found
        cases found
        exact ⟨inside, Nat.lt_succ_self _, zero, fun place from' before => by omega⟩
      · rw [value_read, if_pos zero, if_pos zero]
        rfl
    · refine ⟨?_, ?_, ?_⟩
      · rw [within_read, if_neg zero]
        exact ⟨inside, ih.within⟩
      · rw [value_read, if_neg zero]
        intro next found
        obtain ⟨fits, behind, closes, nonzero⟩ := ih.inside next found
        refine ⟨fits, by omega, closes, fun place from' before => ?_⟩
        by_cases here : place = start
        · exact here ▸ zero
        · exact nonzero place (by omega) before
      · rw [value_read, if_neg zero, if_neg zero]
        exact ih.same
  | case2 start outside =>
    rw [skipTextAt, dif_neg outside, drop_eq_nil_of_le (by rw [length_buffer]; omega)]
    exact ⟨within_pure _, (fun next found => by cases found), rfl⟩

private theorem skipExtraFieldAt_steps (long : 18 ≤ inLen) :
    Steps memory inLen (skipExtraFieldAt inLen headerSize) (skipExtraField inLen ((buffer memory inLen).drop headerSize))
      fun finish => finish = 12 + ((memory 10).toNat + 256 * (memory 11).toNat) := by
  have inside : headerSize + 2 ≤ inLen := by
    rw [headerSize]
    omega
  have xlen : (readLe16At headerSize).value memory = (memory 10).toNat + 256 * (memory 11).toNat := rfl
  have value : (skipExtraFieldAt inLen headerSize).value memory =
      if inLen - 12 < (memory 10).toNat + 256 * (memory 11).toNat then none
      else some (headerSize + ((memory 10).toNat + 256 * (memory 11).toNat + 2)) := by
    rw [skipExtraFieldAt, value_bind, xlen]
    rfl
  refine ⟨?_, ?_, ?_⟩
  · rw [skipExtraFieldAt, within_bind]
    exact ⟨within_readLe16At inside, within_pure _⟩
  · rw [value]
    intro next found
    split at found
    · cases found
    next fits =>
      cases found
      rw [headerSize]
      omega
  · rw [value, skipExtraField, ← value_readLe16At inside, xlen]
    split
    · rfl
    · rw [drop_drop]; rfl

private theorem skipHeaderCrcAt_steps (long : 18 ≤ inLen) (inside : start ≤ inLen) :
    Steps memory inLen (skipHeaderCrcAt miniz inLen start)
      (skipHeaderCrc miniz (buffer memory inLen) ((buffer memory inLen).drop start)) fun finish => finish = start + 2 := by
  have place : (buffer memory inLen).length - ((buffer memory inLen).drop start).length = start := by
    rw [length_drop, length_buffer]
    omega
  rw [skipHeaderCrc, place, length_buffer]
  by_cases short : inLen - 2 < start
  · rw [skipHeaderCrcAt, if_pos short, if_pos short]
    exact ⟨within_pure _, (fun next found => by cases found), rfl⟩
  · have two : start + 2 ≤ inLen := by omega
    have header : (cells 0 start).value memory = (buffer memory inLen).take start := by
      rw [value_cells, ← @buffer_drop_take memory inLen 0 start (by omega), drop_zero]
    have value : (skipHeaderCrcAt miniz inLen start).value memory =
        if readLe16 ((buffer memory inLen).drop start) ≠ miniz.crc16 ((buffer memory inLen).take start) then none
        else some (start + 2) := by
      rw [skipHeaderCrcAt, if_neg short, value_bind, value_bind, value_readLe16At two, header]
      rfl
    refine ⟨?_, ?_, ?_⟩
    · rw [skipHeaderCrcAt, if_neg short, within_bind, within_bind]
      exact ⟨within_readLe16At two, within_cells (by omega), within_pure _⟩
    · rw [value]
      intro next found
      split at found
      · cases found
      · cases found
        exact ⟨two, rfl⟩
    · rw [value, if_neg short]
      split
      · rfl
      · rw [drop_drop]; rfl

theorem Steps.optional {before : Reading UInt8 (Option Nat)} {rest : Option Bytes} {ends : Nat → Prop}
    (first : Steps memory inLen before rest ends) (flg mask : UInt8) (skip : Nat → Reading UInt8 (Option Nat))
    (listed : Bytes → Option Bytes) (behind : Nat → Nat → Prop)
    (later : ∀ start ≤ inLen, ends start → Steps memory inLen (skip start) (listed ((buffer memory inLen).drop start)) (behind start)) :
    Steps memory inLen (before >>= optionalField flg mask skip)
      (rest.bind fun start => if flg &&& mask = 0 then some start else listed start)
      fun finish => ∃ start, ends start ∧ if flg &&& mask = 0 then finish = start else behind start finish := by
  have place := first.inside
  have same := first.same
  cases found : before.value memory with
  | none =>
    rw [found] at same
    subst same
    refine ⟨?_, ?_, ?_⟩
    · rw [within_bind, found]
      exact ⟨first.within, within_pure _⟩
    · rw [value_bind, found]
      intro next member
      cases member
    · rw [value_bind, found]
      rfl
  | some start =>
    rw [found] at same place
    obtain ⟨inside, ended⟩ := place start rfl
    subst same
    by_cases absent : flg &&& mask = 0
    · have step : optionalField flg mask skip (some start) = pure (some start) := if_pos absent
      refine ⟨?_, ?_, ?_⟩
      · rw [within_bind, found, step]
        exact ⟨first.within, within_pure _⟩
      · rw [value_bind, found, step]
        intro next member
        cases member
        exact ⟨inside, start, ended, by rw [if_pos absent]⟩
      · rw [value_bind, found, step]
        exact if_pos absent
    · have step : optionalField flg mask skip (some start) = skip start := if_neg absent
      have field := later start inside ended
      refine ⟨?_, ?_, ?_⟩
      · rw [within_bind, found, step]
        exact ⟨first.within, field.within⟩
      · rw [value_bind, found, step]
        intro next member
        obtain ⟨fits, ends⟩ := field.inside next member
        exact ⟨fits, start, ended, by rwa [if_neg absent]⟩
      · rw [value_bind, found, step, ← field.same]
        exact if_neg absent

private theorem skipFieldsAt_steps (miniz : Miniz) (long : 18 ≤ inLen) :
    Steps memory inLen (skipFieldsAt miniz inLen (memory 3)) (skipFields miniz (buffer memory inLen) (memory 3))
      (FieldsEnd memory) := by
  have base : Steps memory inLen (pure (some headerSize)) (some ((buffer memory inLen).drop headerSize))
      fun start => start = headerSize := by
    refine ⟨within_pure _, ?_, rfl⟩
    intro next found
    cases found
    rw [headerSize]
    exact ⟨by omega, rfl⟩
  have extra : ∀ start ≤ inLen, start = headerSize →
      Steps memory inLen (skipExtraFieldAt inLen start) (skipExtraField inLen ((buffer memory inLen).drop start))
        fun finish => finish = 12 + ((memory 10).toNat + 256 * (memory 11).toNat) := by
    intro start _ isBase
    subst isBase
    exact skipExtraFieldAt_steps long
  have all := (((base.optional (memory 3) fextra _ (skipExtraField inLen) _ extra).optional (memory 3) fname _ skipText _
    fun start _ _ => skipTextAt_steps).optional (memory 3) fcomment _ skipText _ fun start _ _ =>
      skipTextAt_steps).optional
    (memory 3) fhcrc _
    (skipHeaderCrc miniz (buffer memory inLen)) _ fun start inside _ => skipHeaderCrcAt_steps long inside
  refine ⟨all.within, ?_, ?_⟩
  · intro next found
    obtain ⟨inside, commentEnd, ⟨nameEnd, ⟨extraEnd, ⟨begins, isBase, extraEnds⟩, nameEnds⟩, commentEnds⟩, crcEnds⟩ :=
      all.inside next found
    refine ⟨inside, extraEnd, nameEnd, commentEnd, ?_, ?_, ?_, ?_⟩
    · subst isBase
      split at extraEnds
      next absent => rw [if_pos absent, extraEnds, headerSize]
      next there => rw [if_neg there, extraEnds]
    · exact nameEnds
    · exact commentEnds
    · split at crcEnds
      next absent => rw [if_pos absent, crcEnds, Nat.add_zero]
      next there => rw [if_neg there, crcEnds]
  · have same := all.same
    simp only [bind_assoc, bind_some] at same
    rw [skipFields, length_buffer]
    exact same

private theorem uncompressFrom_run (long : 18 ≤ inLen) (inside : start ≤ inLen) :
    (uncompressFrom miniz inLen start).Within memory inLen ∧
      (inLen - start ≤ 8 → (uncompressFrom miniz inLen start).value memory = none) ∧
      (uncompressFrom miniz inLen start).value memory =
        (let p := buffer memory inLen
        let rest := p.drop start
        let dlen := readLe32 (p.drop (p.length - 4))
        if 100000000 < dlen then none else
          let crc := readLe32 (p.drop (p.length - 8))
          if dlen = 0 then none else if rest.length ≤ 8 then none else
            let result := miniz.run miniz.start (rest.take (rest.length - 8)) dlen .finish
            if result.status ≠ .streamEnd then none else if result.output.length ≠ dlen then none
            else if (miniz.crc32 result.output).toNat ≠ crc then none else some result.output) := by
  have size : (readLe32At (inLen - 4)).value memory = readLe32 ((buffer memory inLen).drop (inLen - 4)) :=
    value_readLe32At (by omega)
  have checksum : (readLe32At (inLen - 8)).value memory = readLe32 ((buffer memory inLen).drop (inLen - 8)) :=
    value_readLe32At (by omega)
  have sizeWithin : (readLe32At (inLen - 4)).Within memory inLen := within_readLe32At (by omega)
  have checksumWithin : (readLe32At (inLen - 8)).Within memory inLen := within_readLe32At (by omega)
  simp only [uncompressFrom, within_bind, value_bind, size, length_drop, length_buffer]
  generalize readLe32 ((buffer memory inLen).drop (inLen - 4)) = dlen
  by_cases large : 100000000 < dlen
  · simp only [if_pos large]
    exact ⟨⟨sizeWithin, within_pure _⟩, fun _ => rfl, rfl⟩
  · simp only [if_neg large, within_bind, value_bind, checksum]
    generalize readLe32 ((buffer memory inLen).drop (inLen - 8)) = crc
    by_cases nothing : dlen = 0
    · simp only [if_pos nothing]
      exact ⟨⟨sizeWithin, checksumWithin, within_pure _⟩, fun _ => rfl, rfl⟩
    simp only [if_neg nothing]
    by_cases short : inLen - start ≤ 8
    · simp only [if_pos short]
      exact ⟨⟨sizeWithin, checksumWithin, within_pure _⟩, fun _ => rfl, rfl⟩
    · have zip : (cells start (inLen - start - 8)).value memory =
          ((buffer memory inLen).drop start).take (inLen - start - 8) := by
        rw [value_cells, buffer_drop_take (by omega)]
      simp only [if_neg short, within_bind, value_bind, zip]
      refine ⟨⟨sizeWithin, checksumWithin, within_cells (by omega), ?_⟩, fun tooShort => absurd tooShort short, ?_⟩
      · repeat' split
        all_goals exact within_pure _
      · repeat' split
        all_goals rfl

private theorem buffer_front (long : 18 ≤ inLen) :
    ∃ rest, buffer memory inLen = memory 0 :: memory 1 :: memory 2 :: memory 3 :: rest := by
  refine ⟨(buffer memory inLen).drop 4, ?_⟩
  rw [← @buffer_drop_cons memory inLen 3 (by omega), ← @buffer_drop_cons memory inLen 2 (by omega),
    ← @buffer_drop_cons memory inLen 1 (by omega), ← @buffer_drop_cons memory inLen 0 (by omega), drop_zero]

private theorem uncompressAt_run (miniz : Miniz) (memory : Nat → UInt8) (inLen : Nat) :
    (uncompressAt miniz inLen).Within memory inLen ∧
      (uncompressAt miniz inLen).value memory = flbGzipUncompress miniz (buffer memory inLen) ∧
      ((uncompressAt miniz inLen).value memory ≠ none → ∃ finish, FieldsEnd memory finish ∧ finish + 8 ≤ inLen) := by
  rw [uncompressAt, flbGzipUncompress, length_buffer]
  by_cases small : inLen < 18
  · rw [if_pos small, if_pos small]
    exact ⟨within_pure _, rfl, fun text => absurd rfl text⟩
  · have long : 18 ≤ inLen := Nat.le_of_not_lt small
    obtain ⟨rest, front⟩ := @buffer_front memory inLen long
    have magic : (buffer memory inLen).take 2 ≠ [0x1f, 0x8b] ↔ memory 0 ≠ 0x1f ∨ memory 1 ≠ 0x8b := by
      rw [front]
      simp only [take_succ_cons, take_zero, ne_eq, List.cons.injEq, and_true]
      exact not_and_or
    have method : (buffer memory inLen)[2]? = some (memory 2) := by
      rw [front]
      rfl
    have flg : (buffer memory inLen)[3]?.getD 0 = memory 3 := by
      rw [front]
      rfl
    rw [if_neg small, if_neg small, within_read, value_read, flg, method]
    by_cases first : memory 0 ≠ 0x1f
    · rw [if_pos first, if_pos (magic.mpr (.inl first))]
      exact ⟨⟨by omega, within_pure _⟩, rfl, fun text => absurd rfl text⟩
    rw [if_neg first, within_read, value_read]
    by_cases second : memory 1 ≠ 0x8b
    · rw [if_pos second, if_pos (magic.mpr (.inr second))]
      exact ⟨⟨by omega, by omega, within_pure _⟩, rfl, fun text => absurd rfl text⟩
    rw [if_neg second, if_neg (fun wrong => (magic.mp wrong).elim first second), within_read, value_read]
    by_cases deflate : memory 2 ≠ 8
    · rw [if_pos deflate, if_pos (fun same => deflate (Option.some.inj same))]
      exact ⟨⟨by omega, by omega, by omega, within_pure _⟩, rfl, fun text => absurd rfl text⟩
    rw [if_neg deflate, if_neg (fun other => other (congrArg some (not_not.mp deflate))), within_read, value_read]
    by_cases reserved : memory 3 &&& 0xe0 ≠ 0
    · simp only [if_pos reserved]
      exact ⟨⟨by omega, by omega, by omega, by omega, within_pure _⟩, rfl, fun text => absurd rfl text⟩
    simp only [if_neg reserved, within_bind, value_bind]
    have fields := @skipFieldsAt_steps memory inLen miniz long
    have place := fields.inside
    rw [fields.same]
    cases found : (skipFieldsAt miniz inLen (memory 3)).value memory with
    | none =>
      refine ⟨⟨by omega, by omega, by omega, by omega, fields.within, within_pure _⟩, rfl, ?_⟩
      exact fun text => absurd rfl text
    | some start =>
      rw [found] at place
      obtain ⟨inside, ends⟩ := place start rfl
      obtain ⟨within, fits, value⟩ := @uncompressFrom_run memory miniz inLen start long inside
      refine ⟨⟨by omega, by omega, by omega, by omega, fields.within, within⟩, ?_, ?_⟩
      · simp only [map_some]
        rw [value]
        simp
      · intro text
        refine ⟨start, ends, ?_⟩
        by_contra short
        exact text (fits (by omega))

/-- Nothing is read but the buffer, and without room for the fields and the footer the result is -1. -/
theorem uncompress_within (miniz : Miniz) (memory : Nat → UInt8) (inLen : Nat) :
    (uncompressAt miniz inLen).Within memory inLen ∧
      ((¬ ∃ finish, FieldsEnd memory finish ∧ finish + 8 ≤ inLen) → (uncompressAt miniz inLen).value memory = none) := by
  obtain ⟨within, _, fits⟩ := uncompressAt_run miniz memory inLen
  exact ⟨within, fun noRoom => by_contra fun text => noRoom (fits text)⟩

end FluentBit.Gzip
