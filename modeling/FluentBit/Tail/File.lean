import Mathlib.Algebra.Order.Ring.Int
import Mathlib.Data.List.Basic

/-! Reading of one monitored file, after `plugins/in_tail/tail_file.c`: line
framing, buffer growth and the position kept in the database. The modes that
hand a line to a parser, to the multiline core or to Docker reassembly are not
configured here. -/

set_option autoImplicit false

namespace FluentBit.Tail

abbrev Byte : Type := UInt8

def lf : Byte := 10
def cr : Byte := 13
def nul : Byte := 0

/-- The fields of `struct flb_tail_config` that reading uses. A chunk size of
zero is left out: the capacity computation would wrap around. -/
structure Config where
  bufChunkSize : Nat
  bufMaxSize : Nat
  skipLongLines : Bool
  skipEmptyLines : Bool
  readFromHead : Bool
  key : String
  pathKey : Option String
  offsetKey : Option String
  chunkPositive : 0 < bufChunkSize
  -- "buffer_max_size must be >= buffer_chunk"
  chunkBelowMax : bufChunkSize ≤ bufMaxSize

/-- The body `flb_tail_file_pack_line` encodes. -/
structure Record where
  path : Option (String × String)
  offset : Option (String × Nat)
  line : String × List Byte
deriving DecidableEq

/-- `struct flb_tail_file`. The list holds the `buf_len` bytes of `buf_data`. -/
structure File where
  origName : String
  bufData : List Byte
  bufSize : Nat
  offset : Nat
  streamOffset : Nat
  lastProcessedBytes : Nat
  parsed : Nat
  size : Nat
  pendingBytes : Nat
  skipNext : Bool
  skipWarn : Bool
  encoder : List Record
deriving DecidableEq

def packLine (config : Config) (file : File) (line : List Byte) (processedBytes : Nat) : Record :=
  { path := config.pathKey.map fun key => (key, file.origName)
    offset := config.offsetKey.map fun key => (key, file.streamOffset + processedBytes)
    line := (config.key, line) }

/-- The local variables of `process_content`. -/
structure Scan where
  data : List Byte
  processedBytes : Nat
  lines : Nat
  skipNext : Bool
  parsed : Nat
  lastProcessedBytes : Nat
  encoder : List Record

/-- `memchr(data, '\n', end - data)`, as a distance from `data`. -/
def memchr (data : List Byte) : Option Nat := data.findIdx? (· == lf)

def Scan.advance (scan : Scan) (count : Nat) : Scan :=
  { scan with
    data := scan.data.drop count
    processedBytes := scan.processedBytes + count }

/-- The body of the loop of `process_content`, for a line of `len` bytes. -/
def processLine (config : Config) (file : File) (len : Nat) (scan : Scan) : Scan :=
  if scan.skipNext then
    { scan.advance (len + 1) with skipNext := false }
  else if config.skipEmptyLines ∧ len = 0 then
    scan.advance 1
  else if config.skipEmptyLines ∧ len = 1 ∧ scan.data[0]? = some cr then
    scan.advance 2
  else
    let crlf := decide (2 ≤ len) && scan.data[len - 1]? == some cr
    -- the source tests for a lone CR inside the branch for two bytes and more
    if 2 ≤ len ∧ len = 1 ∧ crlf then
      scan.advance 2
    else
      let record := packLine config file (scan.data.take (len - crlf.toNat)) scan.processedBytes
      let next := scan.advance (len + 1)
      { next with
        lines := scan.lines + 1
        parsed := 0
        lastProcessedBytes := scan.lastProcessedBytes + next.processedBytes
        encoder := scan.encoder ++ [record] }

/-- The loop of `process_content`; every round consumes a byte at least. -/
def processLines (config : Config) (file : File) : Nat → Scan → Scan
  | 0, scan => scan
  | fuel + 1, scan =>
    match memchr scan.data with
    | none => scan
    | some len => processLines config file fuel (processLine config file len scan)

def skipNulls (file : File) : Scan :=
  let nulls := file.bufData.takeWhile (· == nul)
  { data := file.bufData.drop nulls.length
    processedBytes := nulls.length
    lines := 0
    skipNext := file.skipNext
    parsed := file.parsed
    lastProcessedBytes := 0
    encoder := file.encoder }

/-- `process_content` returns the number of lines, the bytes consumed and the
records given to `flb_input_log_append_records`. -/
structure Processed where
  file : File
  lines : Nat
  bytes : Nat
  appended : List Record

def processContent (config : Config) (file : File) : Processed :=
  let scan := processLines config file file.bufData.length (skipNulls file)
  let file := { file with
    skipNext := scan.skipNext
    parsed := file.bufData.length
    lastProcessedBytes := scan.lastProcessedBytes
    encoder := scan.encoder }
  if 0 < scan.lines then
    -- an encoder without output is not appended, and one with output is reset
    { file := { file with encoder := [] }
      lines := scan.lines
      bytes := scan.processedBytes
      appended := scan.encoder }
  else if file.skipNext then
    { file, lines := scan.lines, bytes := file.bufData.length, appended := [] }
  else
    { file, lines := scan.lines, bytes := scan.processedBytes, appended := [] }

/-- Conversion of a `size_t` to `int`. -/
def toInt (count : Nat) : Int := (count : Int).bmod (2 ^ 32)

/-- `consume_bytes` takes its lengths as `int`; there is no result when the
range given to `memmove` is not inside the buffer. -/
def consumeBytes (buf : List Byte) (bytes length : Nat) : Option (List Byte) :=
  if 0 ≤ toInt bytes ∧ toInt bytes ≤ toInt length then
    let moved := (toInt length - toInt bytes).toNat
    some ((buf.drop (toInt bytes).toNat).take moved ++ buf.drop moved)
  else
    none

inductive Result where
  | ok | wait | busy | error
deriving DecidableEq

/-- What one call of `flb_tail_file_chunk` finds outside: whether the input is
paused, how many bytes `read` is ready to give and which calls fail. -/
structure Call where
  paused : Bool
  available : Nat
  reallocFails : Bool
  fstatFails : Bool

abbrev Row : Type := Option Nat

structure Chunked where
  result : Result
  file : File
  row : Row
  appended : List Record

/-- `adjust_counters`, for a file of `stSize` bytes. -/
def adjustCounters (stSize : Nat) (file : File) (row : Row) : File × Row :=
  if stSize < file.offset then
    ({ file with offset := 0, bufData := [] }, row.map fun _ => 0)
  else
    ({ file with size := stSize, pendingBytes := stSize - file.offset }, row)

/-- The part of `flb_tail_file_chunk` that makes room in a full buffer. -/
def makeRoom (config : Config) (reallocFails : Bool) (file : File) : Option File :=
  if file.bufSize - file.bufData.length - 1 < 1 then
    if config.bufMaxSize ≤ file.bufSize then
      if config.skipLongLines then
        some { file with skipWarn := true, bufData := [], skipNext := true }
      else
        none
    else if reallocFails then
      none
    else
      some { file with bufSize := min (file.bufSize + config.bufChunkSize) config.bufMaxSize }
  else
    some file

/-- `flb_tail_file_chunk` on a file that is not compressed and holds `content`. -/
def fileChunk (config : Config) (content : List Byte) (call : Call) (file : File) (row : Row) : Option Chunked :=
  if call.paused then
    some { result := .busy, file, row, appended := [] }
  else
    match makeRoom config call.reallocFails file with
    | none => some { result := .error, file, row, appended := [] }
    | some file =>
      let readSize := file.bufSize - file.bufData.length - 1
      let read := (content.drop file.offset).take (min call.available readSize)
      if 0 < read.length then
        let file := { file with
          offset := file.offset + read.length
          bufData := file.bufData ++ read }
        let processed := processContent config file
        match consumeBytes processed.file.bufData processed.bytes processed.file.bufData.length with
        | none => none
        | some moved =>
          let file := { processed.file with
            streamOffset := processed.file.streamOffset + processed.bytes
            bufData := moved.take (processed.file.bufData.length - processed.bytes) }
          let row := row.map fun _ => file.offset
          let (adjusted, row) := if call.fstatFails then (file, row)
            else adjustCounters content.length file row
          some { result := if call.fstatFails then .error else .ok
                 file := adjusted, row, appended := processed.appended }
      else
        let (adjusted, row) := if call.fstatFails then (file, row)
          else adjustCounters content.length file row
        some { result := if call.fstatFails then .error else .wait
               file := adjusted, row, appended := [] }

structure Session where
  file : File
  row : Row
  records : List Record
deriving DecidableEq

def Session.chunk (config : Config) (content : List Byte) (call : Call) (session : Session) : Option Session :=
  (fileChunk config content call session.file session.row).map fun chunked =>
    { file := chunked.file, row := chunked.row, records := session.records ++ chunked.appended }

/-- Successive calls of `flb_tail_file_chunk` on a file that does not change. -/
def Session.chunks (config : Config) (content : List Byte) : List Call → Session → Option Session
  | [], session => some session
  | call :: calls, session =>
    (session.chunk config content call).bind (Session.chunks config content calls)

/-- The file `flb_tail_file_append` creates, before its position is set. -/
def created (config : Config) (name : String) (stSize : Nat) : File :=
  { origName := name
    bufData := []
    bufSize := config.bufChunkSize
    offset := 0
    streamOffset := 0
    lastProcessedBytes := 0
    parsed := 0
    size := stSize
    pendingBytes := 0
    skipNext := false
    skipWarn := false
    encoder := [] }

/-- `flb_tail_db_file_set` on a configured database: a known file takes the
offset of its row, a new one is inserted with its own. -/
def dbFileSet (file : File) (row : Row) : File × Row :=
  match row with
  | some offset => ({ file with offset }, row)
  | none => (file, some file.offset)

/-- `set_file_position` with a database, for a file of `stSize` bytes. -/
def setFilePosition (config : Config) (stSize : Nat) (file : File) (row : Row) : File × Row :=
  let (file, row) := dbFileSet file row
  if 0 < file.offset then
    (file, row)
  else if config.readFromHead then
    (file, row)
  else
    ({ file with offset := stSize }, some stSize)

/-- `flb_tail_file_append` with a database. -/
def fileAppend (config : Config) (name : String) (content : List Byte) (row : Row) : File × Row :=
  let (file, row) := setFilePosition config content.length (created config name content.length) row
  ({ file with pendingBytes := file.size - file.offset }, row)

end FluentBit.Tail
