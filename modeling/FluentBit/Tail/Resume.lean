import FluentBit.Foundation.Runs
import FluentBit.Tail.FileProperties

/-! Stopping and resuming. The database keeps the number of bytes read; the part
of a line that is still in the buffer is kept nowhere. -/

set_option autoImplicit false

namespace FluentBit.Tail

open List

/-- A growing file, the monitor of it when one runs, its row and all records of
all runs. `registered` is the content when the file got its row. -/
structure Service where
  content : List Byte
  monitor : Option File
  row : Row
  records : List Record
  registered : Option (List Byte)

inductive Event where
  | grow (bytes : List Byte)
  | start
  | chunk (call : Call)
  | stop

def Service.initial : Service :=
  { content := [], monitor := none, row := none, records := [], registered := none }

/-- A call without a result ends the process, as a stop does; `flb_tail_file_remove`
leaves the row alone. -/
def Service.step (config : Config) (name : String) (event : Event) (service : Service) : Service :=
  match event with
  | .grow bytes => { service with content := service.content ++ bytes }
  | .stop => { service with monitor := none }
  | .start =>
    match service.monitor with
    | some _ => service
    | none =>
      let (file, row) := fileAppend config name service.content service.row
      { service with
        monitor := some file, row
        registered := service.registered.or (some service.content) }
  | .chunk call =>
    match service.monitor with
    | none => service
    | some file =>
      match fileChunk config service.content call file service.row with
      | none => { service with monitor := none }
      | some chunked =>
        { service with
          monitor := some chunked.file
          row := chunked.row
          records := service.records ++ chunked.appended }

def firstPosition (config : Config) (registered : List Byte) : Nat :=
  if config.readFromHead then 0 else registered.length

/-- The lines among the first `offset` bytes that were not complete when the file was
registered; all of them when files are read from the head. -/
def newLines (config : Config) (registered read : List Byte) : List (List Byte) :=
  if config.readFromHead then Lines.closed lf [] read
  else (Lines.closed lf [] read).drop (Lines.closed lf [] registered).length

def Resumed (config : Config) (service : Service) : Prop :=
  ∀ registered offset, service.registered = some registered → service.row = some offset →
    texts service.records =
      packedLines config ((newLines config registered (service.content.take offset)).filter (fits config))

def Continues (config : Config) (service : Service) : Event → Prop
  | .grow bytes => nul ∉ bytes
  | .chunk _ => True
  | .stop => ∀ file, service.monitor = some file →
      Lines.pending lf [] (service.content.take file.offset) = []
  | .start => config.readFromHead = true ∨
      match service.row with
      | none => Lines.pending lf [] service.content = []
      | some offset => 0 < offset ∨ service.content = []

structure Resumable (config : Config) (service : Service) : Prop where
  noNul : nul ∉ service.content
  fresh : service.registered = none →
    service.monitor = none ∧ service.row = none ∧ service.records = []
  known : ∀ registered, service.registered = some registered →
    registered <+: service.content ∧
    Lines.pending lf [] (service.content.take (firstPosition config registered)) = [] ∧
    ∃ offset, service.row = some offset ∧ firstPosition config registered ≤ offset ∧
      offset ≤ service.content.length ∧
      texts service.records = packedLines config ((Lines.closed lf []
        ((service.content.take offset).drop (firstPosition config registered))).filter (fits config)) ∧
      (∀ file, service.monitor = some file → file.offset = offset ∧
        Reading config service.content (firstPosition config registered) service.records file) ∧
      (service.monitor = none → Lines.pending lf []
        ((service.content.take offset).drop (firstPosition config registered)) = [])

theorem resumable_initial (config : Config) : Resumable config .initial := by
  constructor <;> simp [Service.initial]

section

variable {config : Config} {name : String} {service : Service}
variable {records : List Record} {content bytes : List Byte} {base offset : Nat}

theorem Reading.grow {file : File} (reading : Reading config content base records file) :
    Reading config (content ++ bytes) base records file := by
  obtain ⟨below, inside, framed⟩ := reading
  refine ⟨below, by simp; omega, ?_⟩
  rwa [take_append_of_le_length inside]

theorem Resumable.grow (resumable : Resumable config service) (clean : nul ∉ bytes) :
    Resumable config (service.step config name (.grow bytes)) := by
  obtain ⟨noNul, fresh, known⟩ := resumable
  refine ⟨by simp [Service.step, noNul, clean], fresh, ?_⟩
  intro registered same
  obtain ⟨seen, line, offset, row, below, inside, packed, reads, stopped⟩ := known registered same
  have first : firstPosition config registered ≤ service.content.length := Nat.le_trans below inside
  simp only [Service.step]
  rw [take_append_of_le_length first]
  refine ⟨seen.trans (prefix_append _ _), line, offset, row, below, by simp; omega, ?_⟩
  rw [take_append_of_le_length inside]
  exact ⟨packed, fun file open_ => ⟨(reads file open_).1, (reads file open_).2.grow⟩, stopped⟩

theorem split_at_line (line : Lines.pending lf [] (content.take base) = []) (below : base ≤ offset) :
    Lines.closed lf [] (content.take offset) =
        Lines.closed lf [] (content.take base) ++ Lines.closed lf [] ((content.take offset).drop base) ∧
      Lines.pending lf [] (content.take offset) = Lines.pending lf [] ((content.take offset).drop base) := by
  have parts : content.take offset = content.take base ++ (content.take offset).drop base := by
    conv_lhs => rw [← take_append_drop base (content.take offset), take_take, Nat.min_eq_left below]
  constructor
  · conv_lhs => rw [parts, Lines.closed_append, line]
  · conv_lhs => rw [parts, Lines.pending_append, line]

theorem Resumable.stop (resumable : Resumable config service) (continues : Continues config service .stop) :
    Resumable config (service.step config name .stop) := by
  obtain ⟨noNul, fresh, known⟩ := resumable
  refine ⟨noNul, fun none => ⟨rfl, (fresh none).2⟩, ?_⟩
  intro registered same
  obtain ⟨seen, line, offset, row, below, inside, packed, reads, stopped⟩ := known registered same
  refine ⟨seen, line, offset, row, below, inside, packed, by simp [Service.step], fun _ => ?_⟩
  cases running : service.monitor with
  | none => exact stopped running
  | some file =>
    have ended := continues file running
    rwa [(reads file running).1, (split_at_line line below).2] at ended

theorem Resumable.chunk (limit : config.bufMaxSize ≤ 2 ^ 31) (resumable : Resumable config service)
    (call : Call) : Resumable config (service.step config name (.chunk call)) := by
  unfold Service.step
  cases running : service.monitor with
  | none => exact resumable
  | some file =>
    obtain ⟨noNul, fresh, known⟩ := resumable
    cases same : service.registered with
    | none => simp [(fresh same).1] at running
    | some registered =>
      obtain ⟨seen, line, offset, row, below, inside, packed, reads, stopped⟩ := known registered same
      obtain ⟨rfl, reading⟩ := reads file running
      obtain ⟨chunked, made, after, moved, _⟩ := reading.chunk limit noNul call service.row
      simp only [made]
      refine ⟨noNul, by simp, ?_⟩
      rintro other again
      obtain rfl : registered = other := by simpa [same] using again
      refine ⟨seen, line, chunked.file.offset, moved row, after.below, after.inside, after.framed.packed, ?_, by simp⟩
      rintro other ⟨rfl⟩
      exact ⟨rfl, after⟩

/-- The file `flb_tail_file_append` leaves at a position. -/
def openedAt (config : Config) (name : String) (size offset : Nat) : File :=
  { created config name size with offset := offset, pendingBytes := size - offset }

theorem fileAppend_unknown :
    fileAppend config name content none = (openedAt config name content.length (firstPosition config content),
        some (firstPosition config content)) := by
  cases head : config.readFromHead with
  | true | false => simp [fileAppend, setFilePosition, dbFileSet, created, openedAt, firstPosition, head]

theorem fileAppend_known
    (continues : config.readFromHead = true ∨ 0 < offset ∨ content = []) :
    fileAppend config name content (some offset) = (openedAt config name content.length offset, some offset) := by
  simp only [fileAppend, setFilePosition, dbFileSet, created, openedAt]
  by_cases positive : 0 < offset
  · simp [positive]
  · obtain rfl : offset = 0 := by omega
    rcases continues with head | impossible | rfl
    · simp [head]
    · exact absurd impossible positive
    · simp

theorem reading_openedAt (below : base ≤ offset) (inside : offset ≤ content.length)
    (packed : texts records = packedLines config
      ((Lines.closed lf [] ((content.take offset).drop base)).filter (fits config)))
    (ended : Lines.pending lf [] ((content.take offset).drop base) = []) (size : Nat) :
    Reading config content base records (openedAt config name size offset) := by
  refine ⟨below, inside, rfl, ?_, ?_, ?_, by simp [openedAt, created], packed⟩
  · simp [openedAt, created, config.chunkPositive]
  · exact config.chunkBelowMax
  · intro _
    exact ended.symm

section

variable (resumable : Resumable config service)
include resumable

theorem Resumable.register (unknown : service.registered = none) (continues : Continues config service .start) :
    Resumable config (service.step config name .start) := by
  obtain ⟨noNul, fresh, known⟩ := resumable
  obtain ⟨stopped, row, empty⟩ := fresh unknown
  have started : service.step config name .start = { service with
        monitor := some (openedAt config name service.content.length (firstPosition config service.content))
        row := some (firstPosition config service.content)
        registered := some service.content } := by
    simp [Service.step, stopped, row, fileAppend_unknown, unknown]
  have inside : firstPosition config service.content ≤ service.content.length := by
    unfold firstPosition
    split <;> omega
  have line : Lines.pending lf [] (service.content.take (firstPosition config service.content)) = [] := by
    unfold firstPosition
    split
    · simp
    next tail =>
      simpa [Continues, row, tail] using continues
  have nothing : (service.content.take (firstPosition config service.content)).drop
      (firstPosition config service.content) = [] := by simp
  rw [started]
  refine ⟨noNul, by simp, ?_⟩
  rintro registered ⟨rfl⟩
  refine ⟨prefix_rfl, line, _, rfl, Nat.le_refl _, inside, ?_, ?_, by simp⟩
  · simp [nothing, empty]
  · rintro file ⟨rfl⟩
    exact ⟨rfl, reading_openedAt (Nat.le_refl _) inside (by simp [nothing, empty]) (by simp [nothing]) _⟩

theorem Resumable.restart (stopped : service.monitor = none) {registered : List Byte}
    (same : service.registered = some registered) (continues : Continues config service .start) :
    Resumable config (service.step config name .start) := by
  obtain ⟨noNul, fresh, known⟩ := resumable
  obtain ⟨seen, line, offset, row, below, inside, packed, reads, ended⟩ := known registered same
  have again : config.readFromHead = true ∨ 0 < offset ∨ service.content = [] := by
    simpa [Continues, row] using continues
  have started : service.step config name .start = { service with
        monitor := some (openedAt config name service.content.length offset), row := some offset } := by
    simp [Service.step, stopped, row, fileAppend_known again, same]
  rw [started]
  refine ⟨noNul, by simp [same], ?_⟩
  intro other known
  obtain rfl : registered = other := by simpa [same] using known
  refine ⟨seen, line, offset, rfl, below, inside, packed, ?_, by simp⟩
  rintro file ⟨rfl⟩
  exact ⟨rfl, reading_openedAt below inside packed (ended stopped) _⟩

theorem Resumable.start (continues : Continues config service .start) :
    Resumable config (service.step config name .start) := by
  cases running : service.monitor with
  | some file =>
    have same : service.step config name .start = service := by simp [Service.step, running]
    rw [same]
    exact resumable
  | none =>
    cases known : service.registered with
    | none => exact resumable.register known continues
    | some registered => exact resumable.restart running known continues

end

theorem Resumable.step (limit : config.bufMaxSize ≤ 2 ^ 31) (resumable : Resumable config service)
    (event : Event) (continues : Continues config service event) :
    Resumable config (service.step config name event) := by
  cases event with
  | grow bytes => exact resumable.grow continues
  | start => exact resumable.start continues
  | chunk call => exact resumable.chunk limit call
  | stop => exact resumable.stop continues

theorem Resumable.resumed (resumable : Resumable config service) : Resumed config service := by
  intro registered offset same row
  obtain ⟨seen, line, stored, storedRow, below, inside, packed, _⟩ := resumable.known registered same
  obtain rfl : stored = offset := by simpa [storedRow] using row
  have parts := (split_at_line line below).1
  rw [packed, newLines]
  unfold firstPosition at *
  split
  · simp
  next tail =>
    simp only [tail, Bool.false_eq_true, if_false] at parts ⊢
    rw [parts, ← prefix_iff_eq_take.mp seen, drop_left]

end

def twoRuns : List Event :=
  [.grow [97, lf], .start, .chunk (readCall 2), .stop, .grow [98, 99, lf], .start, .chunk (readCall 3)]

def cutRun : List Event :=
  [.grow [97, 98, lf], .start, .chunk (readCall 1), .stop, .start, .chunk (readCall 2)]

end FluentBit.Tail
