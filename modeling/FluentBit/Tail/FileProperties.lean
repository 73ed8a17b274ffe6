import FluentBit.Foundation.Lines
import FluentBit.Tail.File

/-! Line framing: however the content is cut into reads, the records are its
lines, and the buffer holds what follows the last line feed. -/

set_option autoImplicit false

namespace FluentBit.Tail

open List

/-! ### One call of `process_content` -/

variable {data : List Byte}

theorem memchr_none (none : memchr data = none) : lf ∉ data := by
  intro member
  have different := List.findIdx?_eq_none_iff.mp none lf member
  simp at different

theorem memchr_some {len : Nat} (found : memchr data = some len) :
    ∃ line rest, data = line ++ lf :: rest ∧ lf ∉ line ∧ line.length = len := by
  obtain ⟨inside, is_lf, earlier⟩ := List.findIdx?_eq_some_iff_getElem.mp found
  refine ⟨data.take len, data.drop (len + 1), ?_, ?_, by simp; omega⟩
  · have symbol : data[len] = lf := by simpa using is_lf
    rw [← symbol, getElem_cons_drop, take_append_drop]
  · intro member
    obtain ⟨index, below, symbol⟩ := getElem_of_mem member
    have before : index < len := by
      simp only [length_take] at below
      omega
    have different := earlier index before
    simp only [getElem_take] at symbol
    simp [symbol] at different

/-- The text `process_content` packs for a line. -/
def packedText (line : List Byte) : List Byte :=
  if 2 ≤ line.length ∧ line.getLast? = some cr then line.dropLast else line

def kept (config : Config) (line : List Byte) : Bool :=
  !(config.skipEmptyLines && (line == [] || line == [cr]))

def packedLines (config : Config) (lines : List (List Byte)) : List (List Byte) :=
  (lines.filter (kept config)).map packedText

def texts (records : List Record) : List (List Byte) := records.map fun record => record.line.2

@[simp] theorem texts_nil : texts [] = [] := rfl

@[simp] theorem texts_append (first second : List Record) :
    texts (first ++ second) = texts first ++ texts second := by simp [texts]

@[simp] theorem packedLines_nil (config : Config) : packedLines config [] = [] := rfl

theorem packedLines_append (config : Config) (first second : List (List Byte)) :
    packedLines config (first ++ second) = packedLines config first ++ packedLines config second := by
  simp [packedLines]

theorem packedLines_cons (config : Config) (line : List Byte) (lines : List (List Byte)) :
    packedLines config (line :: lines) = packedLines config [line] ++ packedLines config lines :=
  packedLines_append config [line] lines

theorem take_packed (line rest : List Byte) : (line ++ lf :: rest).take (line.length -
      (decide (2 ≤ line.length) && (line ++ lf :: rest)[line.length - 1]? == some cr).toNat) = packedText line := by
  by_cases long : 2 ≤ line.length
  · have last : (line ++ lf :: rest)[line.length - 1]? = line.getLast? := by
      rw [List.getElem?_append_left (by omega), List.getLast?_eq_getElem?]
    by_cases carriage : line.getLast? = some cr
    · simp [packedText, long, last, carriage, take_append, dropLast_eq_take]
    · have other : (line.getLast? == some cr) = false := by simpa using carriage
      simp [packedText, last, carriage, other]
  · simp [packedText, long]

structure LineDone (config : Config) (line rest : List Byte) (before after : Scan) : Prop where
  data : after.data = rest
  bytes : after.processedBytes = before.processedBytes + (line.length + 1)
  skip : after.skipNext = false
  packed : texts after.encoder =
    texts before.encoder ++ packedLines config (if before.skipNext then [] else [line])
  count : after.lines + before.encoder.length = before.lines + after.encoder.length

theorem processLine_done (config : Config) (file : File) {line rest : List Byte} {scan : Scan}
    (shape : scan.data = line ++ lf :: rest) :
    LineDone config line rest scan (processLine config file line.length scan) := by
  have dropped : scan.data.drop (line.length + 1) = rest := by
    simp [shape, drop_append]
  unfold processLine
  split
  next skipping => constructor <;> simp [Scan.advance, dropped, skipping]
  next reading =>
    split
    next empty =>
      obtain ⟨skips, zero⟩ := empty
      obtain rfl := length_eq_zero_iff.mp zero
      constructor <;> simp_all [Scan.advance, packedLines, kept]
    next nonempty =>
      split
      next lone =>
        obtain ⟨skips, one, head⟩ := lone
        obtain ⟨symbol, rfl⟩ := length_eq_one_iff.mp one
        simp only [shape, cons_append, List.getElem?_cons_zero, Option.some.injEq] at head
        constructor <;> simp_all [Scan.advance, packedLines, kept]
      next notLone =>
        have keeps : kept config line = true := by
          simp only [kept, Bool.not_eq_true', Bool.and_eq_false_imp, Bool.or_eq_false_iff, beq_eq_false_iff_ne]
          intro skips
          constructor
          · rintro rfl
            exact nonempty ⟨skips, rfl⟩
          · rintro rfl
            exact notLone ⟨skips, rfl, by simp [shape]⟩
        simp only
        split
        next impossible =>
          obtain ⟨two, one, _⟩ := impossible
          omega
        · have text := take_packed line rest
          rw [← shape] at text
          constructor
          · simpa [Scan.advance] using dropped
          · simp [Scan.advance]
          · simpa [Scan.advance] using reading
          · simp [reading, packedLines, keeps, texts, packLine, text]
          · simp
            omega

structure LinesDone (config : Config) (before after : Scan) : Prop where
  data : after.data = Lines.pending lf [] before.data
  bytes : after.processedBytes + after.data.length = before.processedBytes + before.data.length
  skip : after.skipNext = (before.skipNext && decide (lf ∉ before.data))
  packed : texts after.encoder = texts before.encoder ++
    packedLines config (if before.skipNext then (Lines.closed lf [] before.data).tail
      else Lines.closed lf [] before.data)
  count : after.lines + before.encoder.length = before.lines + after.encoder.length

theorem processLines_done (config : Config) (file : File) (fuel : Nat) (scan : Scan)
    (enough : scan.data.length ≤ fuel) : LinesDone config scan (processLines config file fuel scan) := by
  induction fuel generalizing scan with
  | zero =>
    have empty : scan.data = [] := length_eq_zero_iff.mp (by omega)
    constructor <;> simp [processLines, empty]
  | succ fuel ih =>
    unfold processLines
    cases found : memchr scan.data with
    | none =>
      have absent := memchr_none found
      constructor <;> simp [Lines.closed_of_not_mem absent, Lines.pending_of_not_mem absent, absent]
    | some len =>
      obtain ⟨line, rest, shape, absent, rfl⟩ := memchr_some found
      have one := processLine_done config file shape
      have shorter : (processLine config file line.length scan).data.length ≤ fuel := by
        rw [one.data]
        have length := congrArg List.length shape
        simp at length
        omega
      have others := ih _ shorter
      simp only
      constructor
      · rw [others.data, one.data, shape, Lines.pending_line]
      · have bytes := others.bytes
        rw [one.data, one.bytes] at bytes
        rw [bytes, shape]
        simp
        omega
      · rw [others.skip, one.skip]
        simp [shape]
      · rw [others.packed, one.packed, one.skip, one.data, shape, Lines.closed_line absent]
        cases scan.skipNext with
        | true => simp
        | false =>
          simp only [Bool.false_eq_true, if_false, nil_append, append_assoc]
          rw [← packedLines_cons]
      · have first := one.count
        have later := others.count
        omega

/-- What `process_content` leaves to the caller, for a buffer that does not
start with a null character and an encoder without output. -/
structure ContentDone (config : Config) (file : File) (processed : Processed) : Prop where
  unchanged : processed.file = { file with
    skipNext := processed.file.skipNext
    parsed := processed.file.parsed
    lastProcessedBytes := processed.file.lastProcessedBytes }
  bytes : processed.bytes ≤ file.bufData.length
  left : file.bufData.drop processed.bytes =
    if processed.file.skipNext then [] else Lines.pending lf [] file.bufData
  skip : processed.file.skipNext = (file.skipNext && decide (lf ∉ file.bufData))
  packed : texts processed.appended =
    packedLines config (if file.skipNext then (Lines.closed lf [] file.bufData).tail
      else Lines.closed lf [] file.bufData)

theorem skipNulls_of_not_mem {file : File} (noNul : nul ∉ file.bufData) : skipNulls file = {
      data := file.bufData, processedBytes := 0, lines := 0, skipNext := file.skipNext
      parsed := file.parsed, lastProcessedBytes := 0, encoder := file.encoder } := by
  have nulls : file.bufData.takeWhile (· == nul) = [] := by
    cases data : file.bufData with
    | nil => rfl
    | cons symbol rest =>
      have different : symbol ≠ nul := by
        rintro rfl
        exact noNul (by simp [data])
      simp [different]
  simp [skipNulls, nulls]

theorem processContent_done (config : Config) (file : File) (encoder : file.encoder = [])
    (noNul : nul ∉ file.bufData) : ContentDone config file (processContent config file) := by
  have done := processLines_done config file file.bufData.length (skipNulls file) (by simp [skipNulls])
  unfold processContent
  rw [skipNulls_of_not_mem noNul] at done ⊢
  generalize processLines config file file.bufData.length _ = scan at done ⊢
  obtain ⟨data, bytes, skip, packed, count⟩ := done
  simp only [encoder, texts_nil, nil_append, length_nil, Nat.zero_add, Nat.add_zero] at data bytes skip packed count
  have left : file.bufData.drop scan.processedBytes = Lines.pending lf [] file.bufData := by
    have suffix := suffix_iff_eq_drop.mp (@Lines.pending_suffix _ _ lf [] file.bufData)
    rw [data] at bytes
    rw [suffix, nil_append]
    congr 1
    omega
  by_cases some : 0 < scan.lines
  · have ended : scan.skipNext = false := by
      -- without a line feed nothing is packed
      by_contra skipping
      have absent : lf ∉ file.bufData := by simp_all
      rw [Lines.closed_of_not_mem absent] at packed
      have empty : scan.encoder = [] := by simpa [texts] using packed
      simp [empty] at count
      omega
    simp only [some, if_true]
    constructor <;> simp_all
    omega
  · have none : scan.encoder = [] := length_eq_zero_iff.mp (by omega)
    simp only [some, if_false]
    cases skipping : scan.skipNext with
    | true =>
      constructor <;> simp_all
    | false =>
      constructor <;> simp_all
      omega

/-! ### One call of `flb_tail_file_chunk` -/

def fits (config : Config) (line : List Byte) : Bool := decide (line.length + 2 ≤ config.bufMaxSize)

/-- What the file holds once `read` has been read and `records` have been appended. -/
structure Framed (config : Config) (read : List Byte) (records : List Record) (file : File) : Prop where
  encoder : file.encoder = []
  room : file.bufData.length < file.bufSize
  size : file.bufSize ≤ config.bufMaxSize
  held : file.skipNext = false → file.bufData = Lines.pending lf [] read
  skipped : file.skipNext = true → file.bufData = [] ∧ fits config (Lines.pending lf [] read) = false
  packed : texts records = packedLines config ((Lines.closed lf [] read).filter (fits config))

theorem Framed.created (config : Config) (name : String) (size : Nat) :
    Framed config [] [] (created config name size) := by
  constructor <;> simp [Tail.created, config.chunkPositive, config.chunkBelowMax]

theorem toInt_of_lt {count : Nat} (small : count < 2 ^ 31) : toInt count = count := by
  unfold toInt
  rw [Int.bmod_eq_of_le] <;> omega

theorem consumeBytes_done {buf : List Byte} {bytes : Nat} (inside : bytes ≤ buf.length) (small : buf.length < 2 ^ 31) :
    ∃ moved, consumeBytes buf bytes buf.length = some moved ∧ moved.take (buf.length - bytes) = buf.drop bytes := by
  have count : ((buf.length : Int) - (bytes : Int)).toNat = buf.length - bytes := by omega
  refine ⟨buf.drop bytes ++ buf.drop (buf.length - bytes), ?_, ?_⟩
  · have range : (0 : Int) ≤ bytes ∧ (bytes : Int) ≤ buf.length := by omega
    simp only [consumeBytes, toInt_of_lt small, toInt_of_lt (Nat.lt_of_le_of_lt inside small), range, count,
      and_self, if_true, Int.toNat_natCast]
    rw [take_of_length_le (by simp)]
  · rw [take_append_of_le_length (by simp), take_of_length_le (by simp)]

section

variable {config : Config} {read piece : List Byte} {records : List Record} {file next : File}
variable {line content : List Byte} {base : Nat}

theorem fits_false_of_longer {longer : List Byte} (inside : line <+: longer) (long : fits config line = false) :
    fits config longer = false := by
  have length := inside.length_le
  simp only [fits, decide_eq_false_iff_not] at long ⊢
  omega

theorem Framed.makeRoom (framed : Framed config read records file) {reallocFails : Bool}
    (made : makeRoom config reallocFails file = some next) :
    Framed config read records next ∧ next.offset = file.offset := by
  unfold Tail.makeRoom at made
  split at made
  next full =>
    split at made
    next limit =>
      split at made
      · obtain rfl := Option.some.inj made
        refine ⟨⟨framed.encoder, ?_, framed.size, by simp, ?_, framed.packed⟩, rfl⟩
        · have room := framed.room
          simp
          omega
        · intro _
          refine ⟨rfl, ?_⟩
          cases skipping : file.skipNext with
          | true => exact (framed.skipped skipping).2
          | false =>
            have room := framed.room
            have held := framed.held skipping
            simp only [fits, decide_eq_false_iff_not, ← held]
            omega
      · cases made
    next growing =>
      split at made
      · cases made
      · obtain rfl := Option.some.inj made
        have room := framed.room
        have positive := config.chunkPositive
        exact ⟨⟨framed.encoder, by simp; omega, Nat.min_le_right _ _, framed.held, framed.skipped, framed.packed⟩, rfl⟩
  · obtain rfl := Option.some.inj made
    exact ⟨framed, rfl⟩

theorem Framed.room_made (framed : Framed config read records file) (two : 2 ≤ config.bufMaxSize)
    (readable : config.skipLongLines = true ∨ fits config (Lines.pending lf [] read) = true) :
    ∃ ready, Tail.makeRoom config false file = some ready ∧ 0 < ready.bufSize - ready.bufData.length - 1 := by
  have room := framed.room
  unfold Tail.makeRoom
  split
  next full =>
    split
    next limit =>
      have skips : config.skipLongLines = true := by
        rcases readable with skips | short
        · exact skips
        · exfalso
          cases skipping : file.skipNext with
          | true => simp [(framed.skipped skipping).2] at short
          | false =>
            simp only [fits, decide_eq_true_eq, ← framed.held skipping] at short
            omega
      rw [if_pos skips]
      exact ⟨_, rfl, by simp; omega⟩
    next growing =>
      have positive := config.chunkPositive
      rw [if_neg (by simp)]
      exact ⟨_, rfl, by simp; omega⟩
  next free => exact ⟨file, rfl, by omega⟩

theorem fits_of_mem_closed (framed : Framed config read records file)
    (bound : piece.length ≤ file.bufSize - file.bufData.length - 1) {line : List Byte}
    (member : line ∈ Lines.closed lf [] (file.bufData ++ piece)) : fits config line = true := by
  have length := Lines.length_of_mem_closed member
  have room := framed.room
  have size := framed.size
  simp only [length_nil, length_append] at length
  simp only [fits, decide_eq_true_eq]
  omega

section

variable (framed : Framed config read records file)
include framed

theorem Framed.process (bound : piece.length ≤ file.bufSize - file.bufData.length - 1) {processed : Processed}
    (done : ContentDone config { file with bufData := file.bufData ++ piece } processed) {left : List Byte}
    (moved : left = (file.bufData ++ piece).drop processed.bytes) :
    Framed config (read ++ piece) (records ++ processed.appended) { processed.file with bufData := left } := by
  obtain ⟨unchanged, bytes, remaining, skip, packed⟩ := done
  simp only at bytes remaining skip packed
  have shorter : left.length ≤ file.bufData.length + piece.length := by simp [moved]
  have room := framed.room
  have encoder : processed.file.encoder = file.encoder := by rw [unchanged]
  have bufSize : processed.file.bufSize = file.bufSize := by rw [unchanged]
  rw [← moved] at remaining
  have parts : Lines.closed lf [] (read ++ piece) =
      Lines.closed lf [] read ++ Lines.closed lf (Lines.pending lf [] read) piece := Lines.closed_append
  have ends : Lines.pending lf [] (read ++ piece) =
      Lines.pending lf (Lines.pending lf [] read) piece := Lines.pending_append
  have fresh : lf ∉ Lines.pending lf [] read := Lines.not_mem_pending (by simp)
  have fitting := fun line => @fits_of_mem_closed config read piece records file framed bound line
  cases skipping : file.skipNext with
  | false =>
    have held := framed.held skipping
    simp only [skipping, Bool.false_and, Bool.false_eq_true, if_false] at skip packed remaining
    rw [held, Lines.closed_held fresh] at packed fitting
    rw [skip, held, Lines.pending_held fresh] at remaining
    constructor
    · exact encoder.trans framed.encoder
    · simp [bufSize]
      omega
    · exact bufSize ▸ framed.size
    · intro _
      simpa [ends] using remaining
    · simp [skip]
    · rw [texts_append, framed.packed, packed, parts, filter_append, packedLines_append, filter_eq_self.mpr fitting]
  | true =>
    obtain ⟨empty, long⟩ := framed.skipped skipping
    simp only [skipping, empty, Bool.true_and, if_true, nil_append] at skip packed remaining fitting
    by_cases found : lf ∈ piece
    · obtain ⟨line, rest, rfl, absent⟩ := eq_append_cons_of_mem found
      have longer : fits config (Lines.pending lf [] read ++ line) = false :=
        fits_false_of_longer (prefix_append _ _) long
      simp only [Lines.closed_line absent, Lines.pending_line, tail_cons] at packed parts ends fitting remaining
      have skip : processed.file.skipNext = false := by simp [skip]
      rw [skip] at remaining
      constructor
      · exact encoder.trans framed.encoder
      · simp [bufSize]
        omega
      · exact bufSize ▸ framed.size
      · intro _
        simpa [ends] using remaining
      · simp [skip]
      · rw [texts_append, framed.packed, packed, parts, filter_append, packedLines_append,
          filter_cons_of_neg (by simp [longer]),
          filter_eq_self.mpr fun line member => fitting line (mem_cons_of_mem _ member)]
    · have skip : processed.file.skipNext = true := by simp [skip, found]
      rw [skip] at remaining
      rw [Lines.pending_of_not_mem found] at ends
      rw [Lines.closed_of_not_mem found] at parts packed
      constructor
      · exact encoder.trans framed.encoder
      · simp [bufSize]
        omega
      · exact bufSize ▸ framed.size
      · simp [skip]
      · intro _
        refine ⟨by simpa using remaining, ?_⟩
        rw [ends]
        exact fits_false_of_longer (prefix_append _ _) long
      · rw [texts_append, framed.packed, packed, parts]
        simp

theorem Framed.not_mem_bufData (noNul : nul ∉ read) : nul ∉ file.bufData := by
  cases skipping : file.skipNext with
  | true => simp [(framed.skipped skipping).1]
  | false =>
    rw [framed.held skipping]
    intro member
    exact noNul (Lines.pending_suffix.subset member)

theorem Framed.recount (offset streamOffset size pendingBytes : Nat) : Framed config read records
      { file with offset := offset, streamOffset := streamOffset, size := size, pendingBytes := pendingBytes } :=
  ⟨framed.encoder, framed.room, framed.size, framed.held, framed.skipped, framed.packed⟩

end

/-- What a call of `flb_tail_file_chunk` does to a file that is at least as long as its offset:
it frames one more piece of the content, and a row keeps up with the offset. -/
structure ChunkDone (config : Config) (content read : List Byte) (call : Call) (records : List Record)
    (file : File) (row : Row) (piece : List Byte) (chunked : Chunked) : Prop where
  taken : piece <+: content.drop file.offset
  offset : chunked.file.offset = file.offset + piece.length
  framed : Framed config (read ++ piece) (records ++ chunked.appended) chunked.file
  row : row = some file.offset → chunked.row = some chunked.file.offset
  count : ∀ ready, call.paused = false → makeRoom config call.reallocFails file = some ready →
    piece.length = min (min call.available (ready.bufSize - ready.bufData.length - 1))
      (content.length - file.offset)

theorem adjustCounters_of_le {stSize : Nat} (inside : file.offset ≤ stSize) (row : Row) :
    adjustCounters stSize file row = ({ file with size := stSize, pendingBytes := stSize - file.offset }, row) := by
  simp [adjustCounters, Nat.not_lt.mpr inside]

theorem Framed.chunk (limit : config.bufMaxSize ≤ 2 ^ 31) (framed : Framed config read records file)
    (noNul : nul ∉ content) (clean : nul ∉ read) (inside : file.offset ≤ content.length) (call : Call) (row : Row) :
    ∃ chunked piece, fileChunk config content call file row = some chunked ∧
      ChunkDone config content read call records file row piece chunked := by
  unfold fileChunk
  split
  next paused =>
    exact ⟨_, [], rfl, by simp, by simp, by simpa using framed, fun row => row, by simp [paused]⟩
  · cases made : Tail.makeRoom config call.reallocFails file with
    | none => exact ⟨_, [], rfl, by simp, by simp, by simpa using framed, fun row => row, by simp [made]⟩
    | some ready =>
      obtain ⟨readyFramed, sameOffset⟩ := framed.makeRoom made
      simp only [sameOffset]
      generalize shape : (content.drop file.offset).take
        (min call.available (ready.bufSize - ready.bufData.length - 1)) = piece
      have taken : piece <+: content.drop file.offset := shape ▸ take_prefix _ _
      have bound : piece.length ≤ ready.bufSize - ready.bufData.length - 1 := by
        rw [← shape, length_take]
        omega
      have count : ∀ other, call.paused = false → Tail.makeRoom config call.reallocFails file = some other →
          piece.length = min (min call.available (other.bufSize - other.bufData.length - 1))
            (content.length - file.offset) := by
        intro other _ same
        obtain rfl := Option.some.inj (made.symm.trans same)
        rw [← shape, length_take, length_drop]
      have within : file.offset + piece.length ≤ content.length := by
        have length := taken.length_le
        rw [length_drop] at length
        omega
      split
      · have cleanPiece : nul ∉ ready.bufData ++ piece := by
          simp only [mem_append, not_or]
          exact ⟨readyFramed.not_mem_bufData clean, fun member => noNul (mem_of_mem_drop (taken.subset member))⟩
        have done := processContent_done config
          { ready with offset := file.offset + piece.length, bufData := ready.bufData ++ piece }
          readyFramed.encoder cleanPiece
        generalize processContent config _ = processed at done ⊢
        have sameOffset : processed.file.offset = file.offset + piece.length := by rw [done.unchanged]
        have data : processed.file.bufData = ready.bufData ++ piece := by rw [done.unchanged]
        have small : (ready.bufData ++ piece).length < 2 ^ 31 := by
          have size := readyFramed.size
          have room := readyFramed.room
          rw [length_append]
          omega
        obtain ⟨moved, consumed, kept⟩ := consumeBytes_done done.bytes small
        have after := (readyFramed.recount (file.offset + piece.length) ready.streamOffset ready.size
          ready.pendingBytes).process bound done kept
        simp only [data, consumed]
        cases call.fstatFails with
        | true =>
          refine ⟨_, piece, rfl, taken, sameOffset, ?_, ?_, count⟩
          · exact after.recount _ _ processed.file.size processed.file.pendingBytes
          · rintro rfl
            rfl
        | false =>
          simp only [Bool.false_eq_true, if_false]
          rw [adjustCounters_of_le (sameOffset ▸ within)]
          refine ⟨_, piece, rfl, taken, sameOffset, ?_, ?_, count⟩
          · exact after.recount _ _ _ _
          · rintro rfl
            rfl
      next empty =>
        obtain rfl : piece = [] := length_eq_zero_iff.mp (by omega)
        cases call.fstatFails with
        | true => exact ⟨_, [], rfl, by simp, sameOffset, by simpa using readyFramed, by simp [sameOffset], count⟩
        | false =>
          simp only [Bool.false_eq_true, if_false]
          rw [adjustCounters_of_le (sameOffset ▸ inside)]
          refine ⟨_, [], rfl, by simp, sameOffset, ?_, by simp [sameOffset], count⟩
          simpa using readyFramed.recount ready.offset ready.streamOffset content.length
            (content.length - ready.offset)

/-- A file that was framed from position `base` of the content on. -/
structure Reading (config : Config) (content : List Byte) (base : Nat) (records : List Record) (file : File) :
    Prop where
  below : base ≤ file.offset
  inside : file.offset ≤ content.length
  framed : Framed config ((content.take file.offset).drop base) records file

theorem take_drop_append {offset : Nat} (below : base ≤ offset) (inside : offset ≤ content.length)
    (taken : piece <+: content.drop offset) :
    (content.take (offset + piece.length)).drop base = (content.take offset).drop base ++ piece := by
  rw [take_add, ← prefix_iff_eq_take.mp taken, drop_append_of_le_length (by simp; omega)]

theorem Reading.chunk (limit : config.bufMaxSize ≤ 2 ^ 31) (noNul : nul ∉ content)
    (reading : Reading config content base records file) (call : Call) (row : Row) :
    ∃ chunked, fileChunk config content call file row = some chunked ∧
      Reading config content base (records ++ chunked.appended) chunked.file ∧
      (row = some file.offset → chunked.row = some chunked.file.offset) ∧
      (2 ≤ config.bufMaxSize → config.skipLongLines = true ∨
          fits config (Lines.pending lf [] ((content.take file.offset).drop base)) = true →
        file.offset < content.length → call.paused = false → call.reallocFails = false →
        0 < call.available → file.offset < chunked.file.offset) := by
  obtain ⟨below, inside, framed⟩ := reading
  have clean : nul ∉ (content.take file.offset).drop base :=
    fun member => noNul (mem_of_mem_take (mem_of_mem_drop member))
  obtain ⟨chunked, piece, made, done⟩ := framed.chunk limit noNul clean inside call row
  refine ⟨chunked, made, ⟨?_, ?_, ?_⟩, done.row, ?_⟩
  · rw [done.offset]
    omega
  · have length := done.taken.length_le
    rw [length_drop] at length
    rw [done.offset]
    omega
  · rw [done.offset, take_drop_append below inside done.taken]
    exact done.framed
  · intro two readable left unpaused memory available
    obtain ⟨ready, roomMade, capacity⟩ := framed.room_made two readable
    have count := done.count ready unpaused (memory ▸ roomMade)
    rw [done.offset]
    omega

theorem Reading.chunks {content : List Byte} {base : Nat} (limit : config.bufMaxSize ≤ 2 ^ 31)
    (noNul : nul ∉ content) (calls : List Call) {session : Session}
    (reading : Reading config content base session.records session.file) :
    ∃ after, session.chunks config content calls = some after ∧
      Reading config content base after.records after.file := by
  induction calls generalizing session with
  | nil => exact ⟨session, rfl, reading⟩
  | cons call calls ih =>
    obtain ⟨chunked, made, one, _⟩ := reading.chunk limit noNul call session.row
    obtain ⟨after, later, whole⟩ := @ih
      { file := chunked.file, row := chunked.row, records := session.records ++ chunked.appended } one
    refine ⟨after, ?_, whole⟩
    simpa [Session.chunks, Session.chunk, made] using later

/-! ### The lines of the content -/

def lineText (line : List Byte) : List Byte :=
  if line.getLast? = some cr then line.dropLast else line

/-- The texts a reader of `read` is to get. -/
def expectedLines (config : Config) (read : List Byte) : List (List Byte) :=
  (((Lines.closed lf [] read).filter (fits config)).map lineText).filter
    fun text => !(config.skipEmptyLines && text == [])

def AllFit (config : Config) (content : List Byte) : Prop :=
  (∀ line ∈ Lines.closed lf [] content, fits config line = true) ∧
    fits config (Lines.pending lf [] content) = true

theorem AllFit.take (all : AllFit config content) (count : Nat) :
    fits config (Lines.pending lf [] (content.take count)) = true := by
  obtain ⟨line, place, longer⟩ := @Lines.held_prefix _ _ lf
    (Lines.pending lf [] (content.take count)) (content.drop count)
  have whole : content = content.take count ++ content.drop count := (take_append_drop _ _).symm
  have fitting : fits config line = true := by
    rcases place with closed | pending
    · apply all.1
      rw [whole, Lines.closed_append]
      exact mem_append_right _ closed
    · rw [pending, ← Lines.pending_append, ← whole]
      exact all.2
  by_contra long
  simp [fits_false_of_longer longer (by simpa using long)] at fitting

theorem packedText_eq_lineText : packedText line = lineText line ↔ line ≠ [cr] := by
  match line with
  | [] => simp [packedText, lineText]
  | [symbol] => by_cases carriage : symbol = cr <;> simp [packedText, lineText, carriage]
  | first :: second :: rest => simp [packedText, lineText]

theorem lineText_eq_nil : lineText line = [] ↔ line = [] ∨ line = [cr] := by
  match line with
  | [] => simp [lineText]
  | [symbol] => by_cases carriage : symbol = cr <;> simp [lineText, carriage]
  | first :: second :: rest =>
    simp only [lineText]
    split <;> simp

theorem packedLines_eq_expectedLines :
    packedLines config ((Lines.closed lf [] read).filter (fits config)) = expectedLines config read ↔
      config.skipEmptyLines = true ∨ ∀ line ∈ Lines.closed lf [] read, fits config line = true → line ≠ [cr] := by
  unfold packedLines expectedLines
  generalize Lines.closed lf [] read = lines
  cases empties : config.skipEmptyLines with
  | true =>
    have same : kept config = (fun text => !(true && text == [])) ∘ lineText := by
      funext line
      rw [Bool.eq_iff_iff]
      simp [kept, empties, lineText_eq_nil]
    simp only [true_or, iff_true, filter_map, same]
    apply map_congr_left
    intro line member
    apply packedText_eq_lineText.mpr
    rintro rfl
    simp [lineText] at member
  | false =>
    have all : kept config = fun _ => true := by
      funext line
      simp [kept, empties]
    simp [all, packedText_eq_lineText]

def FramesLines (config : Config) (content : List Byte) (session : Session) : Prop :=
  texts session.records = expectedLines config (content.take session.file.offset) ∧
    (AllFit config content →
      session.file.bufData = Lines.pending lf [] (content.take session.file.offset))

/-- Every way of cutting a content into reads gives its lines, except for a line that holds
nothing but a CR while empty lines are kept; and a call that finds data reads some. -/
theorem chunks_frame_lines (limit : config.bufMaxSize ≤ 2 ^ 31) {content : List Byte} (noNul : nul ∉ content)
    (name : String) (row : Row) (calls : List Call) : ∃ session, Session.chunks config content calls
        { file := created config name content.length, row, records := [] } = some session ∧
      (FramesLines config content session ↔ config.skipEmptyLines = true ∨
          ∀ line ∈ Lines.closed lf [] (content.take session.file.offset), fits config line = true → line ≠ [cr]) ∧
      (2 ≤ config.bufMaxSize → config.skipLongLines = true ∨ AllFit config content →
        session.file.offset < content.length →
        ∀ call : Call, call.paused = false → call.reallocFails = false → 0 < call.available →
          ∃ next, session.chunk config content call = some next ∧ session.file.offset < next.file.offset) := by
  have start : Reading config content 0 [] (created config name content.length) :=
    ⟨Nat.zero_le _, Nat.zero_le _, by simpa [created] using Framed.created config name content.length⟩
  obtain ⟨session, ran, reading⟩ := @Reading.chunks config content 0 limit noNul calls
    { file := created config name content.length, row, records := [] } start
  refine ⟨session, ran, ?_, ?_⟩
  · have framed := reading.framed
    simp only [drop_zero] at framed
    have buffer : AllFit config content →
        session.file.bufData = Lines.pending lf [] (content.take session.file.offset) := by
      intro all
      cases skipping : session.file.skipNext with
      | false => exact framed.held skipping
      | true =>
        have long := (framed.skipped skipping).2
        simp [all.take session.file.offset] at long
    rw [FramesLines, framed.packed, packedLines_eq_expectedLines]
    exact and_iff_left buffer
  · intro two readable left call unpaused memory available
    obtain ⟨chunked, made, _, _, advances⟩ := reading.chunk limit noNul call session.row
    have fitting : config.skipLongLines = true ∨
        fits config (Lines.pending lf [] ((content.take session.file.offset).drop 0)) = true :=
      readable.imp id fun all => all.take session.file.offset
    refine ⟨{ file := chunked.file, row := chunked.row, records := session.records ++ chunked.appended }, ?_,
      advances two fitting left unpaused memory available⟩
    rw [Session.chunk, made]
    rfl

end

def defaultConfig : Config :=
  { bufChunkSize := 32768, bufMaxSize := 32768, skipLongLines := false, skipEmptyLines := false
    readFromHead := true, key := "log", pathKey := none, offsetKey := none
    chunkPositive := by decide, chunkBelowMax := by decide }

def readCall (available : Nat) : Call :=
  { paused := false, available, reallocFails := false, fstatFails := false }

/-- Reads of "ab", "\r" and "\n\nc" frame two lines and hold the last byte. -/
theorem chunks_frame_lines_crlf :
    ∃ session, Session.chunks defaultConfig [97, 98, cr, lf, lf, 99] [readCall 2, readCall 1, readCall 3]
        { file := created defaultConfig "app.log" 6, row := none, records := [] } = some session ∧
      FramesLines defaultConfig [97, 98, cr, lf, lf, 99] session := by
  obtain ⟨session, ran, framing, _⟩ := @chunks_frame_lines defaultConfig (by decide)
    [97, 98, cr, lf, lf, 99] (by decide) "app.log" none [readCall 2, readCall 1, readCall 3]
  have offset : (Session.chunks defaultConfig [97, 98, cr, lf, lf, 99] [readCall 2, readCall 1, readCall 3]
      { file := created defaultConfig "app.log" 6, row := none, records := [] }).map
        (fun session => session.file.offset) = some 6 := by decide +kernel
  obtain ⟨same, sameRan, whole⟩ := Option.map_eq_some_iff.mp offset
  obtain rfl := Option.some.inj (ran.symm.trans sameRan)
  exact ⟨session, ran, framing.mpr (.inr (by rw [whole]; decide))⟩

/-- A CRLF that follows another line feed is packed as a CR. -/
theorem chunks_keep_lone_cr : ∃ session, Session.chunks defaultConfig [cr, lf] [readCall 2]
        { file := created defaultConfig "app.log" 2, row := none, records := [] } = some session ∧
      session.file.offset = 2 ∧ AllFit defaultConfig [cr, lf] ∧
      texts session.records = [[cr]] ∧ ¬ FramesLines defaultConfig [cr, lf] session := by
  have ran : (Session.chunks defaultConfig [cr, lf] [readCall 2]
      { file := created defaultConfig "app.log" 2, row := none, records := [] }).map
        (fun session => (session.file.offset, texts session.records)) = some (2, [[cr]]) := by decide +kernel
  obtain ⟨session, ran, values⟩ := Option.map_eq_some_iff.mp ran
  obtain ⟨offset, packed⟩ := Prod.mk.inj values
  refine ⟨session, ran, offset, ⟨by decide, by decide⟩, packed, ?_⟩
  rintro ⟨same, _⟩
  rw [packed, offset] at same
  revert same
  decide

end FluentBit.Tail
