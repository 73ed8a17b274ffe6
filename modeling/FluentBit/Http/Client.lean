import FluentBit.Foundation.Separator
import FluentBit.RecordAccessor.Template

/-! The HTTP client's reading of a response, after `src/flb_http_client.c`. Positions in the buffer are
offsets, so that it may move when it grows, and the zero byte behind the data is where the list ends. -/

set_option autoImplicit false

namespace FluentBit.Http

open List Ascii CString Separator
open RecordAccessor (atoi)

/-! ### The C library -/

def strstr (data needle : Bytes) : Option Nat := Separator.find needle (CString.text data)

def strcasestr (data needle : Bytes) : Option Nat :=
  Separator.find (needle.map tolower) ((CString.text data).map tolower)

def strncasecmp (left right : Bytes) (count : Nat) : Ordering :=
  strncmp (left.map tolower) (right.map tolower) count

def longMax : Int := 2 ^ 63 - 1

def longMin : Int := -2 ^ 63

/-- The number of a `long`, and whether it was out of range. -/
def clip (number : Int) : Int × Bool :=
  if longMax < number then (longMax, true) else if number < longMin then (longMin, true) else (number, false)

/-- Hexadecimal digits, which `0x` may stand before. -/
def magnitude : Bytes → Nat
  | first :: second :: digits =>
    if first = zero ∧ tolower second = letter 'x' then number 16 (digits.takeWhile isHex)
    else number 16 ((first :: second :: digits).takeWhile isHex)
  | digits => number 16 (digits.takeWhile isHex)

/-- `strtol` with base 16, and whether `errno` is `ERANGE` -/
def strtol (text : Bytes) : Int × Bool :=
  match text.dropWhile isSpace with
  | [] => (0, false)
  | sign :: digits =>
    if sign = minus then clip (-(magnitude digits))
    else if sign = 0x2b then clip (magnitude digits)
    else clip (magnitude (sign :: digits))

/-! ### Responses -/

/-- The results `FLB_HTTP_*`. -/
inductive Code where
  | more
  | ok
  | notFound
  | error
  | chunkAvailable
deriving DecidableEq

/-- `struct flb_http_client_response`. A `chunkProcessedEnd` that is not set is 0. -/
structure Response where
  status : Int
  contentLength : Int
  chunkedEncoding : Bool
  chunkProcessedEnd : Nat
  headersEnd : Option Nat
  payload : Option Nat
  payloadSize : Nat
  data : Bytes
deriving DecidableEq

def Response.empty : Response where
  status := 0
  contentLength := -1
  chunkedEncoding := false
  chunkProcessedEnd := 0
  headersEnd := none
  payload := none
  payloadSize := 0
  data := []

/-- The bytes at `payload`. -/
def Response.body (r : Response) : Bytes := (r.data.drop (r.payload.getD 0)).take r.payloadSize

abbrev crlf : Bytes := [carriageReturn, newline]

abbrev emptyLine : Bytes := crlf ++ crlf

def headerLookup (data header : Bytes) : Code × Nat × Nat :=
  match strcasestr data header with
  | none => if (strstr data emptyLine).isSome then (.notFound, 0, 0) else (.more, 0, 0)
  | some p =>
    if (strstr data emptyLine).any (· < p) then (.notFound, 0, 0)
    else
      match strstr (data.drop p) crlf with
      | none => (.more, 0, 0)
      | some line => (.ok, p + header.length, line - header.length)

def checkChunkedEncoding (r : Response) : Response × Code :=
  match headerLookup r.data (ofString "Transfer-Encoding: ") with
  | (.notFound, _) => ({ r with chunkedEncoding := false }, .ok)
  | (.more, _) => (r, .more)
  | (_, header, len) =>
    if strncasecmp (r.data.drop header) (ofString "chunked") len = .eq then ({ r with chunkedEncoding := true }, .ok)
    else (r, .ok)

def checkContentLength (r : Response) : Response × Code :=
  if r.status = 204 then ({ r with contentLength := -1 }, .ok)
  else
    match headerLookup r.data (ofString "Content-Length: ") with
    | (.more, _) => (r, .more)
    | (.notFound, _) => (r, .notFound)
    | (_, header, len) =>
      if 255 < len then (r, .error)
      else ({ r with contentLength := atoi ((r.data.drop header).take len) }, .ok)

/-- `bytes` bytes at a position are dropped. -/
def consumeBytes (data : Bytes) (position bytes : Nat) : Bytes :=
  data.take position ++ data.drop (position + bytes)

def Response.dropFraming (r : Response) (header size : Nat) : Response :=
  let data := consumeBytes (consumeBytes r.data r.chunkProcessedEnd header) (r.chunkProcessedEnd + size) 2
  { r with
    data
    chunkProcessedEnd := r.chunkProcessedEnd + size
    payloadSize := data.length - r.headersEnd.getD 0 }

/-- From `chunk_start` to the next `goto` or `return`. -/
def chunkStart (r : Response) : Response × Option Code :=
  let pending := r.data.drop r.chunkProcessedEnd
  match strstr pending crlf with
  | none => (r, some .more)
  | some len =>
    if 31 < len ∨ len = 0 then (r, some .error)
    else
      let (val, range) := strtol (pending.take len)
      if range = true ∧ (val = longMax ∨ val = longMin) ∨ range = true ∧ val = 0 then (r, some .error)
      else if val < 0 then (r, some .error)
      else
        let size := val.toNat
        let p := len + 2
        if pending.length - p < size + 2 then (r, some .more)
        else if (pending.drop (p + size)).take 2 ≠ crlf then (r, some .error)
        else if size = 0 ∧ pending.length < 5 then (r, some .more)
        else if size = 0 ∧ (pending[3]? ≠ some carriageReturn ∨ pending[4]? ≠ some newline) then
          (r, some .error)
        else
          let r := r.dropFraming p size
          if size = 0 then (r, some .ok)
          else if 0 < r.data.length - r.chunkProcessedEnd then (r, none)
          else (r, some .chunkAvailable)

/-- As many turns as `fuel` allows. -/
def chunkTurns : Nat → Response → Response × Code
  | 0, r => (r, .more)
  | fuel + 1, r =>
    match chunkStart r with
    | (r, some code) => (r, code)
    | (r, none) => chunkTurns fuel r

def processChunkedData (r : Response) : Response × Code := chunkTurns (r.data.length + 1) r

/-! ### Data -/

def readStatus (r : Response) : Response × Bool :=
  if r.status ≤ 0 then
    let r := { r with status := atoi ((r.data.drop 9).take 3) }
    (r, 100 ≤ r.status ∧ r.status ≤ 599)
  else (r, true)

def lookupContentLength (r : Response) : Response × Code :=
  if r.contentLength = -1 ∧ r.chunkedEncoding = false then checkContentLength r else (r, .ok)

def lookupChunkedEncoding (http11 : Bool) (r : Response) : Response × Code :=
  if http11 = true ∧ r.contentLength = -1 then
    if r.chunkedEncoding = false then checkChunkedEncoding r else (r, .ok)
  else (r, .ok)

def Response.markPayload (r : Response) (position : Nat) : Response :=
  { r with payload := some position, payloadSize := r.data.length - position }

def findHeadersEnd (r : Response) : Response :=
  match r.headersEnd with
  | some _ => r
  | none =>
    match strstr r.data emptyLine with
    | none => r
    | some tmp =>
      let r := { r with headersEnd := some (tmp + 4) }
      let r := if r.chunkedEncoding then { r with chunkProcessedEnd := tmp + 4 } else r
      if tmp + 4 < r.data.length then r.markPayload (tmp + 4) else r

def markOnce (headersEnd : Nat) (r : Response) : Response :=
  if r.payload = none ∧ headersEnd < r.data.length then r.markPayload headersEnd else r

def processPayload (headersEnd : Nat) (r : Response) : Response × Code :=
  let r := markOnce headersEnd r
  if 0 ≤ r.contentLength then
    let r := { r with payloadSize := r.data.length - headersEnd }
    if r.contentLength ≤ r.payloadSize then (r, .ok) else (r, .more)
  else if r.chunkedEncoding = true then
    let (r, ret) := processChunkedData r
    if ret = .error then (r, .error)
    else if ret = .ok ∨ ret = .chunkAvailable then (r, ret)
    else (r, .more)
  else (r, .ok)

def processData (http11 : Bool) (r : Response) : Response × Code :=
  if r.data.length < 15 then (r, .more)
  else
    let (r, valid) := readStatus r
    if valid = false then (r, .error)
    else
      let (r, ret) := lookupContentLength r
      if ret = .error then (r, .error)
      else
        let (r, ret) := lookupChunkedEncoding http11 r
        if ret = .error then (r, .error)
        else
          let r := findHeadersEnd r
          match r.headersEnd with
          | none => (r, .more)
          | some headersEnd => processPayload headersEnd r

def readBytes (http11 : Bool) (r : Response) (bytes : Bytes) : Response × Code :=
  processData http11 { r with data := r.data ++ bytes }

def readAll (http11 : Bool) : Response → List Bytes → Response × List Code
  | r, [] => (r, [])
  | r, bytes :: reads =>
    let (r, code) := readBytes http11 r bytes
    let (r, codes) := readAll http11 r reads
    (r, code :: codes)

section

variable {line pending unread more : Bytes}

theorem strstr_line (plain : 0 ∉ line) (noReturn : carriageReturn ∉ line) :
    strstr (line ++ (crlf ++ more)) crlf = some line.length := by
  have plain : (0 : UInt8) ∉ line ++ crlf := by
    rw [mem_append, not_or]
    exact ⟨plain, by decide⟩
  rw [strstr, ← append_assoc, text_append plain]
  exact find_append _ (find_line noReturn)

theorem strstr_line_part (plain : 0 ∉ line) (noReturn : carriageReturn ∉ line)
    (split : pending ++ unread = line ++ (crlf ++ more)) (short : pending.length < line.length + 2) :
    strstr pending crlf = none := by
  obtain ⟨missing, inLine⟩ : pending <+: line ++ crlf := by
    have whole : line ++ crlf <+: line ++ (crlf ++ more) := ⟨more, append_assoc ..⟩
    exact prefix_of_prefix_length_le ⟨unread, split⟩ whole (by simp; omega)
  have plain : (0 : UInt8) ∉ pending := by
    intro member
    have inside : (0 : UInt8) ∈ line ++ crlf := by
      rw [← inLine]
      exact mem_append_left _ member
    cases mem_append.mp inside with
    | inl early => exact plain early
    | inr lineEnd => revert lineEnd; decide
  have found := @find_line _ _ _ [newline] _ noReturn
  rw [strstr, text_eq_self plain]
  apply find_part (inLine.symm ▸ found)
  simpa using short

end

/-! The head of a chunked response, and what the client finds in as much of it as has arrived. -/

open RecordAccessor (atoi)

/-- Status line and headers. The transfer encoding is the first of the name and says that there are chunks,
there is no content length, and the first empty line ends it. -/
structure Head where
  text : Bytes
  before : Bytes
  field : Bytes
  after : Bytes
  shape : text = before ++ (field ++ (crlf ++ after))
  named : field.map tolower = ofString "transfer-encoding: chunked"
  first : Separator.find (ofString "transfer-encoding: ") (text.map tolower) = some before.length
  noLength : Separator.find (ofString "content-length: ") (text.map tolower) = none
  plain : 0 ∉ text
  ended : Separator.find emptyLine text = some (text.length - 4)
  status : 100 ≤ atoi ((text.drop 9).take 3) ∧ atoi ((text.drop 9).take 3) ≤ 599

section

variable {head : Head} {r : Response} {data missing more : Bytes}

theorem Head.field_length : head.field.length = 26 := by
  have same := congrArg List.length head.named
  rwa [length_map] at same

theorem Head.long (head : Head) : head.before.length + 28 ≤ head.text.length := by
  have field := head.field_length
  rw [head.shape]
  simp only [length_append, length_cons, length_nil]
  omega

theorem Head.closed (head : Head) : ∃ lines, head.text = lines ++ emptyLine := by
  have long := head.long
  obtain ⟨rest, whole⟩ := find_occurs head.ended
  have nothing : rest = [] := by
    have lengths := congrArg List.length whole
    simp only [length_append, length_drop, length_cons, length_nil] at lengths
    exact length_eq_zero_iff.mp (by omega)
  rw [nothing, append_nil] at whole
  exact ⟨head.text.take (head.text.length - 4), by rw [whole, take_append_drop]⟩

theorem strstr_whole (head : Head) (more : Bytes) :
    strstr (head.text ++ more) emptyLine = some (head.text.length - 4) := by
  rw [strstr, text_append head.plain]
  exact find_append _ head.ended

section

variable (split : data ++ missing = head.text)
include split

theorem Head.plain_part : 0 ∉ data := by
  intro member
  apply head.plain
  rw [← split]
  exact mem_append_left _ member

theorem strstr_part (some : missing ≠ []) : strstr data emptyLine = none := by
  have long := head.long
  have positive := length_pos_iff.mpr some
  have lengths := congrArg List.length split
  rw [length_append] at lengths
  rw [strstr, text_eq_self (Head.plain_part split)]
  have ended := head.ended
  rw [← split] at ended
  apply find_part ended
  simp only [length_append, length_cons, length_nil]
  omega

theorem headerLookup_part (some : missing ≠ []) : headerLookup data (ofString "Content-Length: ") = (.more, 0, 0) := by
  have absent : strcasestr data (ofString "Content-Length: ") = none := by
    rw [strcasestr, text_eq_self (Head.plain_part split)]
    have absent := head.noLength
    rw [← split, map_append] at absent
    exact find_part_none absent
  unfold headerLookup
  rw [absent, strstr_part split some]
  rfl

end

theorem headerLookup_whole (head : Head) (more : Bytes) :
    headerLookup (head.text ++ more) (ofString "Content-Length: ") = (.notFound, 0, 0) := by
  unfold headerLookup
  rw [strstr_whole]
  cases found : strcasestr (head.text ++ more) (ofString "Content-Length: ") with
  | none => rfl
  | some place =>
    obtain ⟨lines, closed⟩ := head.closed
    have behind : head.text.length - 4 < place := by
      have foreign : newline ∉ ofString "content-length: " := by decide
      have marked : head.text.map tolower =
          (lines ++ [carriageReturn, newline, carriageReturn]).map tolower ++ [newline] := by
        simp only [closed, map_append, append_assoc]
        rfl
      have absent := head.noLength
      rw [marked] at absent
      rw [strcasestr, text_append head.plain, map_append, marked, append_assoc] at found
      have later := find_behind foreign absent found
      simp only [closed, length_map, length_append, length_cons, length_nil] at later ⊢
      omega
    simp [behind]

theorem checkContentLength_part (split : r.data ++ missing = head.text) (some : missing ≠ [])
    (unset : r.contentLength = -1) : (checkContentLength r).1 = r ∧ (checkContentLength r).2 ≠ .error := by
  unfold checkContentLength
  rw [headerLookup_part split some]
  split
  · exact ⟨by rw [← unset], by simp⟩
  · exact ⟨rfl, by simp⟩

theorem checkContentLength_whole (split : r.data = head.text ++ more) (unset : r.contentLength = -1) :
    (checkContentLength r).1 = r ∧ (checkContentLength r).2 ≠ .error := by
  unfold checkContentLength
  have lookup := headerLookup_whole head more
  rw [← split] at lookup
  rw [lookup]
  split
  · exact ⟨by rw [← unset], by simp⟩
  · exact ⟨rfl, by simp⟩

theorem Head.field_absent : 0 ∉ head.field ∧ carriageReturn ∉ head.field := by
  have foreign (byte : UInt8) (stays : tolower byte = byte) (absent : byte ∉ ofString "transfer-encoding: chunked") :
      byte ∉ head.field := by
    intro member
    have moved := mem_map_of_mem (f := tolower) member
    rw [head.named, stays] at moved
    exact absent moved
  exact ⟨foreign 0 (by decide) (by decide), foreign _ (by decide) (by decide)⟩

theorem checkChunkedEncoding_line {behind : Bytes} (found : strcasestr r.data (ofString "Transfer-Encoding: ") =
      some head.before.length) (inside : (strstr r.data emptyLine).any (· < head.before.length) = false)
    (line : r.data.drop head.before.length = head.field ++ (crlf ++ behind)) :
    checkChunkedEncoding r = ({ r with chunkedEncoding := true }, .ok) := by
  have lineEnd : strstr (r.data.drop head.before.length) crlf = some 26 := by
    rw [line, ← append_assoc, strstr, text_append, ← head.field_length]
    · exact find_append _ (find_line head.field_absent.2)
    · rw [mem_append, not_or]
      exact ⟨head.field_absent.1, by decide⟩
  have lookup : headerLookup r.data (ofString "Transfer-Encoding: ") = (.ok, head.before.length + 19, 7) := by
    unfold headerLookup
    simp only [found, inside, lineEnd]
    rfl
  have value : strncasecmp (r.data.drop (head.before.length + 19)) (ofString "chunked") 7 = .eq := by
    have word : (head.field.drop 19).map tolower = ofString "chunked" := by
      rw [map_drop, head.named]
      decide
    rw [← drop_drop, line, drop_append_of_le_length (by rw [head.field_length]; decide), strncasecmp,
      map_append, word]
    unfold strncmp
    rw [text_append (by decide), compareBytes_eq_iff]
    rfl
  unfold checkChunkedEncoding
  rw [lookup]
  simp [value]

theorem checkChunkedEncoding_whole (split : r.data = head.text ++ more) :
    checkChunkedEncoding r = ({ r with chunkedEncoding := true }, .ok) := by
  have long := head.long
  apply @checkChunkedEncoding_line head r (head.after ++ more)
  · rw [split, strcasestr, text_append head.plain, map_append]
    exact find_append _ head.first
  · rw [split, strstr_whole]
    simp only [Option.any_some, decide_eq_false_iff_not]
    omega
  · rw [split, head.shape, append_assoc, drop_left]
    simp

/-- A part of the head asks for more bytes, or names the encoding already. -/
theorem checkChunkedEncoding_part (split : r.data ++ missing = head.text) (some : missing ≠ []) :
    checkChunkedEncoding r = (r, .more) ∨ checkChunkedEncoding r = ({ r with chunkedEncoding := true }, .ok) := by
  have plain := Head.plain_part split
  have noEnd := strstr_part split some
  cases found : strcasestr r.data (ofString "Transfer-Encoding: ") with
  | none =>
    have lookup : headerLookup r.data (ofString "Transfer-Encoding: ") = (.more, 0, 0) := by
      unfold headerLookup
      rw [found, noEnd]
      rfl
    left
    unfold checkChunkedEncoding
    rw [lookup]
  | some place =>
    obtain rfl : place = head.before.length := by
      have again := found
      rw [strcasestr, text_eq_self plain] at again
      have whole := find_append (missing.map tolower) again
      rw [← map_append, split] at whole
      have first := head.first
      exact Option.some.inj (whole.symm.trans first)
    have inside : head.before.length ≤ r.data.length := by
      have bound := find_le found
      have text := (takeWhile_sublist (l := r.data) (· ≠ 0)).length_le
      simp only [length_map, CString.text] at bound
      omega
    have rest : r.data.drop head.before.length ++ missing = head.field ++ (crlf ++ head.after) := by
      rw [← drop_append_of_le_length inside, split, head.shape, drop_left]
    by_cases short : (r.data.drop head.before.length).length < head.field.length + 2
    · have noLine := strstr_line_part head.field_absent.1 head.field_absent.2 rest short
      have lookup : headerLookup r.data (ofString "Transfer-Encoding: ") = (.more, 0, 0) := by
        unfold headerLookup
        simp only [found, noEnd, noLine]
        rfl
      left
      unfold checkChunkedEncoding
      rw [lookup]
    · obtain ⟨behind, line⟩ : head.field ++ crlf <+: r.data.drop head.before.length := by
        apply prefix_of_prefix_length_le ⟨head.after, append_assoc ..⟩ ⟨missing, rest⟩
        simpa using short
      right
      apply checkChunkedEncoding_line found
      · rw [noEnd]
        rfl
      · rw [← line, append_assoc]

def Head.Begins (head : Head) (data : Bytes) : Prop :=
  (∃ missing, missing ≠ [] ∧ data ++ missing = head.text) ∨ ∃ more, data = head.text ++ more

theorem checkContentLength_head (begins : head.Begins r.data) (unset : r.contentLength = -1) :
    (checkContentLength r).1 = r ∧ (checkContentLength r).2 ≠ .error := by
  obtain ⟨missing, some, split⟩ | ⟨more, split⟩ := begins
  · exact checkContentLength_part split some unset
  · exact checkContentLength_whole split unset

theorem readStatus_head (begins : head.Begins r.data) (enough : 15 ≤ r.data.length) :
    ∃ status, 0 < status ∧ readStatus r = ({ r with status }, true) := by
  have long := head.long
  have digits : (r.data.drop 9).take 3 = (head.text.drop 9).take 3 := by
    obtain ⟨missing, some, split⟩ | ⟨more, split⟩ := begins
    · rw [← split, drop_append_of_le_length (by omega), take_append_of_le_length (by simp only [length_drop]; omega)]
    · rw [split, drop_append_of_le_length (by omega), take_append_of_le_length (by simp only [length_drop]; omega)]
  obtain ⟨low, high⟩ := head.status
  by_cases fresh : r.status ≤ 0
  · refine ⟨atoi ((head.text.drop 9).take 3), by omega, ?_⟩
    unfold readStatus
    simp [fresh, digits, low, high]
  · refine ⟨r.status, by omega, ?_⟩
    unfold readStatus
    simp [fresh]

end

end FluentBit.Http
