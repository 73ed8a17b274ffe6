import FluentBit.Foundation.LittleEndian

/-! The two ways to decompress gzip of `src/flb_gzip.c`: all at once, and with a context that is fed with
pieces, as `plugins/in_tail/tail_file.c` does it. The inflate and the checksum of miniz are parameters. No
allocation of memory fails but one of no bytes. -/

set_option autoImplicit false

namespace FluentBit.Gzip

open LittleEndian

inductive Flush where
  | partialFlush
  | finish

/-- The results of `mz_inflate`. -/
inductive MzStatus where
  | ok
  | streamEnd
  | streamError
  | dataError
  | bufError
deriving DecidableEq

/-- What `mz_inflate` does with its input, `used` bytes of which it takes. -/
structure Inflation (State : Type) where
  status : MzStatus
  used : Nat
  output : Bytes
  next : State

/-- The state of a stream, as `mz_inflateInit2` leaves it first, `mz_inflate` with its input and the room for
its output, and `mz_crc32`. -/
structure Miniz where
  State : Type
  start : State
  inflate : State → Bytes → Nat → Flush → Inflation State
  crc32 : Bytes → UInt32

def Miniz.run (miniz : Miniz) (state : miniz.State) (input : Bytes) (room : Nat) (flush : Flush) :
    Inflation miniz.State :=
  miniz.inflate state (input.take (input.length % 2 ^ 32)) (room % 2 ^ 32) flush

/-! ### The header -/

def headerSize : Nat := 10

abbrev fhcrc : UInt8 := 2
abbrev fextra : UInt8 := 4
abbrev fname : UInt8 := 8
abbrev fcomment : UInt8 := 16

def readLe16 (p : Bytes) : Nat := value (p.take 2)

def readLe32 (p : Bytes) : Nat := value (p.take 4)

def Miniz.crc16 (miniz : Miniz) (p : Bytes) : Nat := (miniz.crc32 p).toNat % 2 ^ 16

def skipText : Bytes → Option Bytes
  | [] => none
  | byte :: start => if byte = 0 then some start else skipText start

def skipExtraField (inLen : Nat) (start : Bytes) : Option Bytes :=
  let xlen := readLe16 start
  if inLen - 12 < xlen then none else some (start.drop (xlen + 2))

/-- Checks the checksum of the header `p`, which is at `start`. -/
def skipHeaderCrc (miniz : Miniz) (p start : Bytes) : Option Bytes :=
  if p.length - 2 < p.length - start.length then none
  else if readLe16 start ≠ miniz.crc16 (p.take (p.length - start.length)) then none
  else some (start.drop 2)

def skipFields (miniz : Miniz) (p : Bytes) (flg : UInt8) : Option Bytes :=
  let start := p.drop headerSize
  (if flg &&& fextra = 0 then some start else skipExtraField p.length start).bind fun start =>
  (if flg &&& fname = 0 then some start else skipText start).bind fun start =>
  (if flg &&& fcomment = 0 then some start else skipText start).bind fun start =>
  if flg &&& fhcrc = 0 then some start else skipHeaderCrc miniz p start

/-- `flb_gzip_uncompress`; no text stands for its result -1. -/
def flbGzipUncompress (miniz : Miniz) (p : Bytes) : Option Bytes :=
  if p.length < 18 then none
  else if p.take 2 ≠ [0x1f, 0x8b] then none
  else if p[2]? ≠ some 8 then none
  else
    let flg := p[3]?.getD 0
    if flg &&& 0xe0 ≠ 0 then none
    else
      match skipFields miniz p flg with
      | none => none
      | some start =>
        let dlen := readLe32 (p.drop (p.length - 4))
        if 100000000 < dlen then none
        else
          let crc := readLe32 (p.drop (p.length - 8))
          -- `flb_malloc` gives `NULL` for a size of zero
          if dlen = 0 then none
          else if start.length ≤ 8 then none
          else
            let result := miniz.run miniz.start (start.take (start.length - 8)) dlen .finish
            if result.status ≠ .streamEnd then none
            else if result.output.length ≠ dlen then none
            else if (miniz.crc32 result.output).toNat ≠ crc then none
            else some result.output

/-! ### With a context -/

inductive DecompressorState where
  | failed
  | expectingHeader
  | expectingOptionalHeaders
  | expectingBody
  | expectingFooter
deriving DecidableEq

abbrev failure : Int := -1
abbrev corruptedHeader : Int := -2
abbrev success : Int := 0
abbrev insufficientData : Int := 0

structure Context (miniz : Miniz) where
  state : DecompressorState
  gzipHeader : Bytes
  stream : miniz.State
  buffer : Bytes

section

variable {miniz : Miniz}

def Context.create (miniz : Miniz) : Context miniz :=
  { state := .expectingHeader, gzipHeader := List.replicate headerSize 0, stream := miniz.start, buffer := [] }

def Context.headerFlags (context : Context miniz) : UInt8 := context.gzipHeader[3]?.getD 0

def Context.skip (context : Context miniz) (size : Nat) (flag : UInt8) : Context miniz :=
  { context with
    buffer := context.buffer.drop size
    gzipHeader := context.gzipHeader.set 3 (context.headerFlags &&& ~~~flag) }

def processHeader (context : Context miniz) : Int × Context miniz :=
  if context.buffer.length < headerSize then (failure, context)
  else
    let context :=
      { context with gzipHeader := context.buffer.take headerSize, buffer := context.buffer.drop headerSize }
    if context.gzipHeader.take 2 ≠ [0x1f, 0x8b] then (failure, { context with state := .failed })
    else if context.gzipHeader[2]? ≠ some 8 then (failure, { context with state := .failed })
    else if context.headerFlags &&& 0xe0 ≠ 0 then (failure, { context with state := .failed })
    else (success, { context with state := .expectingOptionalHeaders })

/-- `uint16_t xlen` -/
def uint16 (number : Nat) : Nat := number % 2 ^ 16

def skipExtra (context : Context miniz) : Option (Context miniz) :=
  if context.headerFlags &&& fextra = 0 then some context
  else if context.buffer.length ≤ 2 then none
  else
    let xlen := uint16 (2 + readLe16 context.buffer)
    if context.buffer.length < xlen then none else some (context.skip xlen fextra)

def awaitMore (context : Context miniz) : Option (Context miniz) :=
  if context.headerFlags ≠ 0 ∧ context.buffer = [] then none else some context

/-- `strnlen` of the buffer. -/
def textLength (buffer : Bytes) : Nat := (buffer.takeWhile (· ≠ 0)).length

def skipName (context : Context miniz) : Option (Context miniz) :=
  if context.headerFlags &&& fname = 0 then some context
  else
    let xlen := uint16 (textLength context.buffer)
    if xlen = 0 ∨ xlen = context.buffer.length then none else some (context.skip (uint16 (xlen + 1)) fname)

def skipComment (context : Context miniz) : Option (Context miniz) :=
  if context.headerFlags &&& fcomment = 0 then some context
  else
    let xlen := uint16 (textLength context.buffer)
    if xlen = 0 ∨ xlen = context.buffer.length then none else some (context.skip xlen fcomment)

def awaitCrc (context : Context miniz) : Option (Context miniz) :=
  if context.headerFlags &&& fhcrc ≠ 0 ∧ context.buffer.length ≤ 2 then none else some context

def startBody (context : Context miniz) : Int × Context miniz :=
  (success, { context with state := .expectingBody, stream := miniz.start })

def checkCrc (context : Context miniz) : Int × Context miniz :=
  if context.headerFlags &&& fhcrc = 0 then startBody context
  else if readLe16 context.buffer ≠ miniz.crc16 context.gzipHeader then
    (corruptedHeader, { context with state := .failed })
  else startBody (context.skip 2 fhcrc)

def orWait (step : Context miniz → Option (Context miniz)) (next : Context miniz → Int × Context miniz)
    (context : Context miniz) : Int × Context miniz :=
  match step context with
  | none => (insufficientData, context)
  | some context => next context

def processOptionalHeaders : Context miniz → Int × Context miniz :=
  orWait skipExtra <| orWait awaitMore <| orWait skipName <| orWait awaitMore <| orWait skipComment <|
    orWait awaitMore <| orWait awaitCrc checkCrc

def processBodyChunk (context : Context miniz) (room : Nat) : Int × Bytes × Context miniz :=
  if room = 0 then (success, [], context)
  else
    let result := miniz.run context.stream context.buffer room .partialFlush
    if result.status ≠ .ok ∧ result.status ≠ .streamEnd then
      (failure, [], { context with state := .failed, stream := result.next })
    else
      let availIn := context.buffer.length % 2 ^ 32 - result.used
      let context :=
        { context with buffer := context.buffer.drop (context.buffer.length - availIn), stream := result.next }
      if result.status = .streamEnd then (success, result.output, { context with state := .expectingFooter })
      else (success, result.output, context)

def processFooter (context : Context miniz) : Int × Context miniz :=
  if context.buffer.length < 8 then (insufficientData, context)
  else (success, { context with buffer := context.buffer.drop 8, state := .expectingHeader })

/-! Each of these goes on with the state that the one before has left. -/

def fromFooter : Int × Bytes × Context miniz → Int × Bytes × Context miniz
  | (status, output, context) =>
    if status = success ∧ context.state = .expectingFooter then
      let (status, context) := processFooter context
      (status, output, context)
    else (status, output, context)

def fromBody (room : Nat) : Int × Context miniz → Int × Bytes × Context miniz
  | (status, context) =>
    if status = success ∧ context.state = .expectingBody then fromFooter (processBodyChunk context room)
    else fromFooter (status, [], context)

def fromOptionalHeaders (room : Nat) : Int × Context miniz → Int × Bytes × Context miniz
  | (status, context) =>
    if status = success ∧ context.state = .expectingOptionalHeaders then
      fromBody room (processOptionalHeaders context)
    else fromBody room (status, context)

def dispatch (context : Context miniz) (room : Nat) : Int × Bytes × Context miniz :=
  let status := if context.buffer = [] then insufficientData else success
  if status = success ∧ context.state = .expectingHeader then fromOptionalHeaders room (processHeader context)
  else fromOptionalHeaders room (status, context)

structure Read where
  piece : Bytes
  room : Nat

def Context.append (context : Context miniz) (piece : Bytes) : Context miniz :=
  { context with buffer := context.buffer ++ piece }

/-- A read of `flb_tail_file_chunk`: the context with the bytes so far, unless the decompression fails. -/
def feed (run : Context miniz × Bytes) (read : Read) : Option (Context miniz × Bytes) :=
  let context := run.1.append read.piece
  if context.buffer = [] then some (context, run.2)
  else
    let (status, output, context) := dispatch context read.room
    if status ≠ 0 then none else some (context, run.2 ++ output)

def streamed (miniz : Miniz) (reads : List Read) : Option Bytes :=
  (reads.foldlM feed (Context.create miniz, [])).map (·.2)

end

/-! Members of a gzip file, and what `flb_gzip_uncompress` makes of them. -/

open List Nat Option

/-! ### Members -/

structure Member where
  text : Bool
  mtime : UInt32
  xfl : UInt8
  os : UInt8
  extra : Option Bytes
  name : Option Bytes
  comment : Option Bytes
  headerCrc : Bool
  body : Bytes
  data : Bytes
  crc : UInt32
  size : UInt32

def flagByte (text crc extra name comment : Bool) : UInt8 :=
  text.toUInt8 ||| (if crc then fhcrc else 0) ||| (if extra then fextra else 0) ||| (if name then fname else 0) |||
    (if comment then fcomment else 0)

def extraBytes : Option Bytes → Bytes
  | none => []
  | some extra => bytes 2 extra.length ++ extra

def textBytes : Option Bytes → Bytes
  | none => []
  | some text => text ++ [0]

namespace Member

variable (member : Member) (miniz : Miniz)

def base (flags : UInt8) : Bytes :=
  0x1f :: 0x8b :: 8 :: flags :: (bytes 4 member.mtime.toNat ++ [member.xfl, member.os])

def flags : UInt8 :=
  flagByte member.text member.headerCrc member.extra.isSome member.name.isSome member.comment.isSome

def header : Bytes :=
  member.base member.flags ++ (extraBytes member.extra ++ (textBytes member.name ++ textBytes member.comment))

def crcBytes : Bytes := if member.headerCrc then bytes 2 (miniz.crc16 member.header) else []

def footer : Bytes := bytes 4 member.crc.toNat ++ bytes 4 member.size.toNat

def rest : Bytes := member.body ++ member.footer

def file : Bytes := member.header ++ (member.crcBytes miniz ++ member.rest)

structure Valid : Prop where
  extra : ∀ extra ∈ member.extra, extra.length < 2 ^ 16
  name : ∀ name ∈ member.name, 0 ∉ name
  comment : ∀ comment ∈ member.comment, 0 ∉ comment

def FooterRight : Prop := member.crc = miniz.crc32 member.data ∧ member.size.toNat = member.data.length % 2 ^ 32

/-- There is a text, and it is not over the limit of `flb_gzip_uncompress`. -/
def Accepted : Prop := member.FooterRight miniz ∧ 0 < member.data.length ∧ member.data.length ≤ 100000000

end Member

/-- The inflate is correct and incremental on a body: `At` holds of the states that a stream has when it has
read and written so many bytes. -/
structure Inflates (miniz : Miniz) (At : miniz.State → Nat → Nat → Prop) (body data : Bytes) : Prop where
  nonempty : body ≠ []
  whole : ∀ room, data.length ≤ room →
    (miniz.inflate miniz.start body room .finish).status = .streamEnd ∧
      (miniz.inflate miniz.start body room .finish).output = data
  short : ∀ room < data.length, (miniz.inflate miniz.start body room .finish).status ≠ .streamEnd
  start : At miniz.start 0 0
  next : ∀ {state read written}, At state read written → ∀ {input behind room}, input ≠ [] →
    input <+: body.drop read ++ behind → 0 < room →
    let result := miniz.inflate state input room .partialFlush
    result.used ≤ input.length ∧ read + result.used ≤ body.length ∧ result.output <+: data.drop written ∧
      ((result.status = .streamEnd ∧ read + result.used = body.length ∧ written + result.output.length = data.length) ∨
        (result.status = .ok ∧ At result.next (read + result.used) (written + result.output.length) ∧
          0 < result.used + result.output.length))
  empty : ∀ room > 0, (miniz.inflate miniz.start [] room .partialFlush).status = .bufError

theorem flagByte_reserved : ∀ text crc extra name comment, flagByte text crc extra name comment &&& 0xe0 = 0 := by decide

theorem flagByte_extra : ∀ text crc extra name comment,
    flagByte text crc extra name comment &&& fextra = 0 ↔ extra = false := by decide

theorem flagByte_name : ∀ text crc extra name comment,
    flagByte text crc extra name comment &&& fname = 0 ↔ name = false := by decide

theorem flagByte_comment : ∀ text crc extra name comment,
    flagByte text crc extra name comment &&& fcomment = 0 ↔ comment = false := by decide

theorem flagByte_crc : ∀ text crc extra name comment,
    flagByte text crc extra name comment &&& fhcrc = 0 ↔ crc = false := by decide

/-! ### All at once -/

private theorem readLe16_bytes {number : Nat} (small : number < 2 ^ 16) (more : Bytes) :
    readLe16 (bytes 2 number ++ more) = number := by
  rw [readLe16, take_left' (length_bytes 2 number), value_bytes small]

private theorem readLe32_bytes (number : UInt32) (more : Bytes) :
    readLe32 (bytes 4 number.toNat ++ more) = number.toNat := by
  rw [readLe32, take_left' (length_bytes 4 _), value_bytes number.toNat_lt]

private theorem skipText_text {text : Bytes} (nonzero : 0 ∉ text) (more : Bytes) :
    skipText (text ++ 0 :: more) = some more := by
  induction text with
  | nil => rfl
  | cons byte text ih =>
    have other : byte ≠ 0 := Ne.symm (ne_of_not_mem_cons nonzero)
    rw [cons_append, skipText, if_neg other, ih (not_mem_of_not_mem_cons nonzero)]

namespace Member

variable {member : Member} {miniz : Miniz}

theorem crc16_lt (p : Bytes) : miniz.crc16 p < 2 ^ 16 := mod_lt _ (by decide)

theorem length_base (flags : UInt8) : (member.base flags).length = headerSize := by
  simp [base, headerSize]

theorem length_footer : member.footer.length = 8 := by
  simp [footer]

variable {field : Option Bytes} {At : miniz.State → Nat → Nat → Prop}

private theorem skip_text (nonzero : ∀ text ∈ field, (0 : UInt8) ∉ text) (more : Bytes) :
    (if field.isSome = false then some (textBytes field ++ more) else skipText (textBytes field ++ more)) = some more := by
  cases field with
  | none => rfl
  | some text =>
    have skipped := skipText_text (nonzero text rfl) more
    simpa [textBytes] using skipped

private theorem skip_extra (small : ∀ extra ∈ field, extra.length < 2 ^ 16) {inLen : Nat}
    (inside : (extraBytes field).length ≤ inLen - 10) (more : Bytes) :
    (if field.isSome = false then some (extraBytes field ++ more) else skipExtraField inLen (extraBytes field ++ more)) =
      some more := by
  cases field with
  | none => rfl
  | some extra =>
    have number := readLe16_bytes (small extra rfl) (extra ++ more)
    have fits : ¬ inLen - 12 < extra.length := by
      simp only [extraBytes, length_append, length_bytes] at inside
      omega
    simp only [isSome_some, Bool.true_eq_false, if_false, skipExtraField, extraBytes, append_assoc, number,
      fits, Nat.add_comm extra.length 2]
    rw [← drop_drop, drop_left' (length_bytes 2 _), drop_left]

private theorem skip_crc : (if member.headerCrc = false then some (member.crcBytes miniz ++ member.rest)
      else skipHeaderCrc miniz (member.file miniz) (member.crcBytes miniz ++ member.rest)) = some member.rest := by
  unfold crcBytes
  cases present : member.headerCrc with
  | false => rfl
  | true =>
    have start : (member.file miniz).length - (bytes 2 (miniz.crc16 member.header) ++ member.rest).length =
        member.header.length := by
      simp only [file, crcBytes, present, if_true, length_append, length_bytes]
      omega
    have taken : (member.file miniz).take member.header.length = member.header := by
      rw [file, take_left]
    have inside : ¬ (member.file miniz).length - 2 < member.header.length := by
      simp only [file, crcBytes, present, if_true, length_append, length_bytes]
      omega
    simp only [if_true, Bool.true_eq_false, if_false, skipHeaderCrc, start, inside, taken,
      readLe16_bytes (crc16_lt member.header), ne_eq, not_true]
    rw [drop_left' (length_bytes 2 _)]

private theorem skipFields_file (valid : member.Valid) :
    skipFields miniz (member.file miniz) member.flags = some member.rest := by
  have start : (member.file miniz).drop headerSize = extraBytes member.extra ++ (textBytes member.name ++
      (textBytes member.comment ++ (member.crcBytes miniz ++ member.rest))) := by
    rw [file, header, append_assoc, drop_left' (length_base _)]
    simp
  have inside : (extraBytes member.extra).length ≤ (member.file miniz).length - 10 := by
    simp only [file, header, length_append, length_base, headerSize]
    omega
  simp only [skipFields, start, flags, flagByte_extra, flagByte_name, flagByte_comment, flagByte_crc, skip_extra valid.extra inside,
    skip_text valid.name, skip_text valid.comment, bind_some]
  exact skip_crc

private theorem uncompress_steps (valid : member.Valid) (nonempty : member.body ≠ [])
    (short : (member.file miniz).length < 2 ^ 32) :
    flbGzipUncompress miniz (member.file miniz) = if 100000000 < member.size.toNat then none
      else if member.size.toNat = 0 then none else
        let result := miniz.inflate miniz.start member.body member.size.toNat .finish
        if result.status ≠ .streamEnd then none else if result.output.length ≠ member.size.toNat then none
        else if (miniz.crc32 result.output).toNat ≠ member.crc.toNat then none else some result.output := by
  have positive := length_pos_iff.mpr nonempty
  have length : (member.file miniz).length = member.header.length + (member.crcBytes miniz).length + member.body.length + 8 := by
    simp only [file, rest, length_append, length_footer]
    omega
  have long : headerSize ≤ member.header.length := by
    simp only [header, length_append, length_base]
    omega
  have front : (member.file miniz).take 2 = [0x1f, 0x8b] := rfl
  have method : (member.file miniz)[2]? = some 8 := rfl
  have flg : (member.file miniz)[3]?.getD 0 = member.flags := rfl
  have shape : member.file miniz = (member.header ++ (member.crcBytes miniz ++ member.body)) ++
      (bytes 4 member.crc.toNat ++ bytes 4 member.size.toNat) := by
    simp [file, rest, footer]
  have footer : (member.file miniz).drop ((member.file miniz).length - 8) =
      bytes 4 member.crc.toNat ++ (bytes 4 member.size.toNat ++ []) := by
    rw [append_nil, shape]
    apply drop_left'
    simp only [length_append, length_bytes]
    omega
  have size : (member.file miniz).drop ((member.file miniz).length - 4) = bytes 4 member.size.toNat ++ [] := by
    rw [append_nil, shape, ← append_assoc]
    apply drop_left'
    simp only [length_append, length_bytes]
    omega
  have bodyOnly : member.rest.take (member.rest.length - 8) = member.body := by
    rw [rest]
    apply take_left'
    simp only [length_append, length_footer]
    omega
  have noReserved : member.flags &&& 0xe0 = 0 := flagByte_reserved ..
  have large : ¬ (member.file miniz).length < 18 := by
    simp only [headerSize] at long
    omega
  have behind : ¬ member.rest.length ≤ 8 := by
    simp only [rest, length_append, length_footer]
    omega
  have whole : member.body.take (member.body.length % 2 ^ 32) = member.body := by
    rw [mod_eq_of_lt (by omega), take_length]
  simp only [flbGzipUncompress, large, if_false, front, ne_eq, not_true, method, flg, noReserved, skipFields_file valid, size,
    footer, readLe32_bytes, behind, bodyOnly, Miniz.run, whole, mod_eq_of_lt member.size.toNat_lt]

section

variable (inflates : Inflates miniz At member.body member.data) (valid : member.Valid)
  (short : (member.file miniz).length < 2 ^ 32)
include inflates valid short

theorem uncompress_accepted (accepted : member.Accepted miniz) :
    flbGzipUncompress miniz (member.file miniz) = some member.data := by
  obtain ⟨⟨crc, size⟩, text, limit⟩ := accepted
  rw [mod_eq_of_lt (by omega)] at size
  obtain ⟨ends, output⟩ := inflates.whole member.size.toNat (by omega)
  rw [uncompress_steps valid inflates.nonempty short, if_neg (by omega), if_neg (by omega)]
  simp [ends, output, size.symm, crc]

theorem uncompress_refused (refused : ¬ member.Accepted miniz) :
    flbGzipUncompress miniz (member.file miniz) = none := by
  rw [uncompress_steps valid inflates.nonempty short]
  by_cases limit : 100000000 < member.size.toNat
  · rw [if_pos limit]
  rw [if_neg limit]
  by_cases nothing : member.size.toNat = 0
  · rw [if_pos nothing]
  rw [if_neg nothing]
  by_cases room : member.data.length ≤ member.size.toNat
  · obtain ⟨ends, output⟩ := inflates.whole member.size.toNat room
    by_cases size : member.data.length = member.size.toNat
    · have wrong : ¬ (miniz.crc32 member.data).toNat = member.crc.toNat := by
        intro right
        apply refused
        refine ⟨⟨(UInt32.toNat_inj.mp right).symm, ?_⟩, by omega, by omega⟩
        rw [mod_eq_of_lt (by omega), size]
      simp [ends, output, size, wrong]
    · simp [ends, output, size]
  · have ends := inflates.short member.size.toNat (by omega)
    simp [ends]

theorem uncompress_iff : flbGzipUncompress miniz (member.file miniz) = some member.data ↔ member.Accepted miniz := by
  refine ⟨fun gives => ?_, uncompress_accepted inflates valid short⟩
  by_contra refused
  cases gives.symm.trans (uncompress_refused inflates valid short refused)

end

end Member

end FluentBit.Gzip
