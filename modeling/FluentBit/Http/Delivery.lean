import FluentBit.Http.Chunks

/-! A chunked response that arrives in reads. The client waits until the last byte has been read, and then
has the body, when every size is short enough and the last line is where it looks for it. -/

set_option autoImplicit false

namespace FluentBit.Http

open List Ascii

structure ChunkedResponse where
  head : Head
  chunks : List Chunk
  last : Chunk
  filled : ∀ chunk ∈ chunks, chunk.data ≠ []
  ending : last.data = []

namespace ChunkedResponse

def bytes (response : ChunkedResponse) : Bytes := response.head.text ++ stream response.chunks response.last

def body (response : ChunkedResponse) : Bytes := contents response.chunks

def Readable (response : ChunkedResponse) : Prop := Http.Readable response.chunks response.last

end ChunkedResponse

structure Cut (bytes : Bytes) where
  reads : List Bytes
  filled : ∀ read ∈ reads, read ≠ []
  whole : reads.flatten = bytes

def Delivers (response : ChunkedResponse) (cut : Cut response.bytes) : Prop :=
  ∃ before, (readAll true .empty cut.reads).2 = before ++ [.ok] ∧
    (∀ code ∈ before, code = .more ∨ code = .chunkAvailable) ∧
    (readAll true .empty cut.reads).1.body = response.body

section

variable {response : ChunkedResponse} {r : Response} {bytes unread : Bytes}

structure InHead (response : ChunkedResponse) (r : Response) (unread : Bytes) : Prop where
  unset : r.contentLength = -1
  awaited : r.data ++ unread = response.bytes
  headersEnd : r.headersEnd = none
  payload : r.payload = none

structure InBody (response : ChunkedResponse) (r : Response) (unread : Bytes) : Prop where
  status : 0 < r.status
  unset : r.contentLength = -1
  chunked : r.chunkedEncoding = true
  headersEnd : r.headersEnd = some response.head.text.length
  payload : r.payload = none ∨ r.payload = some response.head.text.length
  progress : ∃ done left pending, response.chunks = done ++ left ∧ (∀ chunk ∈ done, chunk.Short) ∧
    r.data = response.head.text ++ contents done ++ pending ∧
    r.chunkProcessedEnd = (response.head.text ++ contents done).length ∧
    pending ++ unread = stream left response.last

def Waiting (response : ChunkedResponse) (r : Response) (unread : Bytes) : Prop :=
  InHead response r unread ∨ InBody response r unread

inductive Result (response : ChunkedResponse) (unread : Bytes) : Response × Code → Prop where
  | waits {later : Response} {code : Code} (stays : Waiting response later unread) (missing : unread ≠ [])
      (goesOn : code = .more ∨ code = .chunkAvailable) : Result response unread (later, code)
  | ends {later : Response} (all : unread = []) (readable : response.Readable) (body : later.body = response.body) :
      Result response unread (later, .ok)
  | fails {later : Response} (wrong : ¬ response.Readable) : Result response unread (later, .error)

theorem stream_nonempty (chunks : List Chunk) (last : Chunk) : stream chunks last ≠ [] := by
  have text := last.text_length
  intro nothing
  have length := congrArg List.length nothing
  simp only [stream, length_append, length_nil] at length
  omega

theorem InBody.markOnce (inBody : InBody response r unread) :
    InBody response (markOnce response.head.text.length r) unread ∧ (response.head.text.length < r.data.length →
        (Http.markOnce response.head.text.length r).payload = some response.head.text.length) := by
  unfold Http.markOnce
  split
  · exact ⟨{ inBody with payload := .inr rfl }, fun _ => rfl⟩
  next present =>
    refine ⟨inBody, fun more => ?_⟩
    cases inBody.payload with
    | inl absent => exact absurd ⟨absent, more⟩ present
    | inr set => exact set

theorem InBody.outcome (inBody : InBody response r unread) :
    ∃ done left, response.chunks = done ++ left ∧ (∀ chunk ∈ done, chunk.Short) ∧
      Outcome r (response.head.text ++ contents done) left response.last unread (processChunkedData r) := by
  obtain ⟨done, left, pending, parts, short, data, position, awaited⟩ := inBody.progress
  have same : r = r.moved (response.head.text ++ contents done) pending r.payloadSize := by
    rw [Response.moved, ← data, ← position]
  have filled : ∀ chunk ∈ left, chunk.data ≠ [] := by
    intro chunk member
    apply response.filled
    rw [parts]
    exact mem_append_right _ member
  have enough : pending.length < r.data.length + 1 := by
    rw [data]
    simp only [length_append]
    omega
  refine ⟨done, left, parts, short, ?_⟩
  have outcome := @chunkTurns_outcome r (response.head.text ++ contents done) pending unread r.payloadSize _ _ filled
    response.ending _ enough awaited
  rw [← same] at outcome
  exact outcome

theorem InBody.present (inBody : InBody response r []) : response.head.text.length < r.data.length := by
  obtain ⟨done, left, pending, parts, short, data, position, awaited⟩ := inBody.progress
  rw [append_nil] at awaited
  have positive := length_pos_iff.mpr (stream_nonempty left response.last)
  rw [← awaited] at positive
  rw [data]
  simp only [length_append]
  omega

theorem readable_iff {done left : List Chunk} (parts : response.chunks = done ++ left)
    (short : ∀ chunk ∈ done, chunk.Short) : response.Readable ↔ Readable left response.last := by
  unfold ChunkedResponse.Readable Readable
  rw [parts, forall_mem_append]
  exact ⟨fun readable => ⟨readable.1.2, readable.2⟩, fun readable => ⟨⟨short, readable.1⟩, readable.2⟩⟩

theorem processPayload_result (inBody : InBody response r unread) :
    Result response unread (processPayload response.head.text.length r) := by
  obtain ⟨later, payload⟩ := inBody.markOnce
  obtain ⟨done, left, parts, short, outcome⟩ := later.outcome
  have unset := later.unset
  have chunked := later.chunked
  unfold processPayload
  generalize turns : processChunkedData (markOnce response.head.text.length r) = result at outcome
  simp only [unset, chunked, turns]
  rw [if_neg (by decide), if_pos trivial]
  cases outcome with
  | @waits more rest pending payloadSize code partsLeft shortMore awaited missing goesOn =>
    have stays : InBody response ((markOnce response.head.text.length r).moved
        (response.head.text ++ contents done ++ contents more) pending payloadSize) unread := by
      refine { later with progress := ⟨done ++ more, rest, pending, ?_, ?_, ?_, ?_, awaited⟩ }
      · rw [parts, partsLeft, append_assoc]
      · exact forall_mem_append.mpr ⟨short, shortMore⟩
      · simp [Response.moved, contents]
      · simp [Response.moved, contents]
    cases goesOn with
    | inl more =>
      subst more
      exact .waits (.inr stays) missing (.inl rfl)
    | inr available =>
      subst available
      exact .waits (.inr stays) missing (.inr rfl)
  | ends all readable =>
    subst all
    apply Result.ends rfl ((readable_iff parts short).mpr readable)
    have headersEnd := later.headersEnd
    have place := payload inBody.present
    simp only [Response.body, Response.moved, place, headersEnd, Option.getD_some, append_nil, append_assoc,
      drop_left, ChunkedResponse.body, parts]
    rw [take_of_length_le (by simp only [length_append]; omega)]
    simp [contents]
  | fails wrong => exact .fails (mt (readable_iff parts short).mp wrong)

theorem processData_body (inBody : InBody response r unread) : Result response unread (processData true r) := by
  have result := processPayload_result inBody
  obtain ⟨done, left, pending, parts, short, data, position, awaited⟩ := inBody.progress
  have long := response.head.long
  have enough : ¬ r.data.length < 15 := by
    rw [data]
    simp only [length_append]
    omega
  have status : readStatus r = (r, true) := by
    unfold readStatus
    rw [if_neg (by have := inBody.status; omega)]
  have contentLength : lookupContentLength r = (r, .ok) := by
    unfold lookupContentLength
    rw [inBody.chunked, if_neg (by simp)]
  have encoding : lookupChunkedEncoding true r = (r, .ok) := by
    unfold lookupChunkedEncoding
    simp only [inBody.chunked, inBody.unset]
    rfl
  have headersEnd : findHeadersEnd r = r := by
    unfold findHeadersEnd
    rw [inBody.headersEnd]
  unfold processData
  simp only [enough, status, contentLength, encoding, headersEnd, inBody.headersEnd]
  exact result

theorem lookups_head (begins : response.head.Begins r.data) (unset : r.contentLength = -1) :
    (lookupContentLength r).1 = r ∧ (lookupContentLength r).2 ≠ .error ∧
      ∃ chunked ret, lookupChunkedEncoding true r = ({ r with chunkedEncoding := chunked }, ret) ∧ ret ≠ .error ∧
        ∀ more, r.data = response.head.text ++ more → chunked = true := by
  have contentLength := checkContentLength_head begins unset
  cases chunked : r.chunkedEncoding with
  | true =>
    have same : r = { r with chunkedEncoding := true } := by rw [← chunked]
    refine ⟨?_, ?_, true, .ok, ?_, by simp, fun _ _ => rfl⟩
    · simp [lookupContentLength, chunked]
    · simp [lookupContentLength, chunked]
    · rw [← same]
      simp [lookupChunkedEncoding, chunked]
  | false =>
    have same : r = { r with chunkedEncoding := false } := by rw [← chunked]
    have lookup : lookupContentLength r = checkContentLength r := by simp [lookupContentLength, unset, chunked]
    have encoding : lookupChunkedEncoding true r = checkChunkedEncoding r := by
      simp [lookupChunkedEncoding, unset, chunked]
    rw [lookup, encoding]
    refine ⟨contentLength.1, contentLength.2, ?_⟩
    obtain ⟨missing, some, split⟩ | ⟨more, split⟩ := begins
    · have notWhole : ∀ more, r.data ≠ response.head.text ++ more := by
        intro more whole
        rw [whole, append_assoc] at split
        have nothing := append_right_eq_self.mp split
        exact some (append_eq_nil_iff.mp nothing).2
      cases checkChunkedEncoding_part split some with
      | inl waits =>
        refine ⟨false, .more, ?_, by simp, fun more whole => absurd whole (notWhole more)⟩
        rw [waits, ← same]
      | inr found => exact ⟨true, .ok, found, by simp, fun _ _ => rfl⟩
    · exact ⟨true, .ok, checkChunkedEncoding_whole split, by simp, fun _ _ => rfl⟩

theorem begins_of_awaited (awaited : r.data ++ unread = response.bytes) :
    (∃ missing, missing ≠ [] ∧ r.data ++ missing = response.head.text ∧
        unread = missing ++ stream response.chunks response.last) ∨
      ∃ more, r.data = response.head.text ++ more ∧ more ++ unread = stream response.chunks response.last := by
  obtain ⟨missing, split, rest⟩ | ⟨more, split, rest⟩ := append_eq_append_iff.mp awaited
  · by_cases nothing : missing = []
    · subst nothing
      exact .inr ⟨[], by simpa using split.symm, by simpa using rest⟩
    · exact .inl ⟨missing, nothing, split.symm, rest⟩
  · exact .inr ⟨more, split, rest.symm⟩

theorem findHeadersEnd_whole {more : Bytes} (split : r.data = response.head.text ++ more)
    (awaited : more ++ unread = stream response.chunks response.last) (status : 0 < r.status)
    (unset : r.contentLength = -1) (chunked : r.chunkedEncoding = true) (headersEnd : r.headersEnd = none)
    (payload : r.payload = none) : InBody response (findHeadersEnd r) unread := by
  have long := response.head.long
  have place : response.head.text.length - 4 + 4 = response.head.text.length := by omega
  have found := strstr_whole response.head more
  rw [← split] at found
  unfold findHeadersEnd
  simp only [headersEnd, found, place, chunked, if_true]
  have progress : ∃ done left pending, response.chunks = done ++ left ∧ (∀ chunk ∈ done, chunk.Short) ∧
      r.data = response.head.text ++ contents done ++ pending ∧
      response.head.text.length = (response.head.text ++ contents done).length ∧
      pending ++ unread = stream left response.last :=
    ⟨[], response.chunks, more, rfl, by simp, by simpa [contents] using split, by simp [contents], awaited⟩
  split
  · exact ⟨status, unset, rfl, rfl, .inr rfl, progress⟩
  · exact ⟨status, unset, rfl, rfl, .inl payload, progress⟩

theorem processData_head (inHead : InHead response r unread) : Result response unread (processData true r) := by
  obtain ⟨unset, awaited, headersEnd, payload⟩ := inHead
  have long := response.head.long
  have missing (inside : r.data.length < response.head.text.length) : unread ≠ [] := by
    rintro rfl
    have lengths := congrArg List.length awaited
    simp only [ChunkedResponse.bytes, length_append, length_nil] at lengths
    omega
  unfold processData
  by_cases few : r.data.length < 15
  · rw [if_pos few]
    exact .waits (.inl ⟨unset, awaited, headersEnd, payload⟩) (missing (by omega)) (.inl rfl)
  · have places := begins_of_awaited awaited
    have begins : response.head.Begins r.data := by
      obtain ⟨missing, some, split, _⟩ | ⟨more, split, _⟩ := places
      · exact .inl ⟨missing, some, split⟩
      · exact .inr ⟨more, split⟩
    obtain ⟨status, positive, read⟩ := readStatus_head begins (Nat.le_of_not_lt few)
    obtain ⟨sameLength, noError, chunked, ret, encoding, goesOn, known⟩ :=
      @lookups_head response { r with status } begins unset
    simp only [few, read, sameLength, noError, encoding, goesOn, if_false, Bool.true_eq_false]
    obtain ⟨part, some, split, rest⟩ | ⟨more, split, rest⟩ := places
    · have noEnd := strstr_part split some
      have stays : findHeadersEnd { r with status, chunkedEncoding := chunked } =
          { r with status, chunkedEncoding := chunked } := by
        unfold findHeadersEnd
        simp only [headersEnd, noEnd]
      have inside : r.data.length < response.head.text.length := by
        have positive := length_pos_iff.mpr some
        rw [← split, length_append]
        omega
      rw [stays]
      simp only [headersEnd]
      exact .waits (.inl ⟨unset, awaited, rfl, payload⟩) (missing inside) (.inl rfl)
    · have inBody := @findHeadersEnd_whole response { r with status, chunkedEncoding := chunked } unread more split rest
        positive unset (known more split) headersEnd payload
      simp only [inBody.headersEnd]
      exact processPayload_result inBody

theorem Waiting.read (waiting : Waiting response r (bytes ++ unread)) :
    Result response unread (readBytes true r bytes) := by
  cases waiting with
  | inl inHead =>
    obtain ⟨unset, awaited, headersEnd, payload⟩ := inHead
    rw [← append_assoc] at awaited
    exact processData_head ⟨unset, awaited, headersEnd, payload⟩
  | inr inBody =>
    obtain ⟨done, left, pending, parts, short, data, position, awaited⟩ := inBody.progress
    apply processData_body
    refine { inBody with progress := ⟨done, left, pending ++ bytes, parts, short, ?_, position, ?_⟩ }
    · rw [data, append_assoc]
    · rw [← awaited, append_assoc]

theorem readAll_result {reads : List Bytes} (filled : ∀ read ∈ reads, read ≠ []) (some : reads.flatten ≠ [])
    (waiting : Waiting response r reads.flatten) :
    (response.Readable → ∃ before, (readAll true r reads).2 = before ++ [.ok] ∧
        (∀ code ∈ before, code = .more ∨ code = .chunkAvailable) ∧ (readAll true r reads).1.body = response.body) ∧
      (¬ response.Readable → Code.error ∈ (readAll true r reads).2) := by
  induction reads generalizing r with
  | nil => exact absurd rfl some
  | cons bytes reads ih =>
    have result := waiting.read
    generalize call : readBytes true r bytes = outcome at result
    cases result with
    | @waits later code stays missing goesOn =>
      obtain ⟨delivered, refused⟩ := ih (fun read member => filled read (mem_cons_of_mem _ member)) missing stays
      simp only [readAll, call]
      constructor
      · intro readable
        obtain ⟨before, codes, earlier, body⟩ := delivered readable
        refine ⟨code :: before, by rw [codes]; rfl, ?_, body⟩
        intro one member
        cases mem_cons.mp member with
        | inl same => exact same ▸ goesOn
        | inr later => exact earlier one later
      · intro wrong
        exact mem_cons_of_mem _ (refused wrong)
    | ends all readable body =>
      -- no read is empty, so that this one was the last
      obtain rfl : reads = [] := by
        cases reads with
        | nil => rfl
        | cons read reads => exact absurd (append_eq_nil_iff.mp all).1 (filled read (by simp))
      simp only [readAll, call]
      exact ⟨fun _ => ⟨[], rfl, by simp, body⟩, fun wrong => absurd readable wrong⟩
    | fails wrong =>
      simp only [readAll, call]
      exact ⟨fun readable => absurd readable wrong, fun _ => mem_cons_self ..⟩

/-- The body is delivered when the last byte has been read, and not before, exactly when the sizes are
readable, however the response is cut. -/
theorem delivers_iff (response : ChunkedResponse) (cut : Cut response.bytes) :
    Delivers response cut ↔ response.Readable := by
  have some : cut.reads.flatten ≠ [] := by
    rw [cut.whole]
    exact append_ne_nil_of_right_ne_nil _ (stream_nonempty _ _)
  have waiting : Waiting response .empty cut.reads.flatten := .inl ⟨rfl, cut.whole, rfl, rfl⟩
  obtain ⟨delivered, refused⟩ := readAll_result cut.filled some waiting
  constructor
  · intro delivers
    obtain ⟨before, codes, earlier, _⟩ := delivers
    by_contra wrong
    have member := refused wrong
    rw [codes, mem_append] at member
    cases member with
    | inl inside => obtain same | same := earlier _ inside <;> cases same
    | inr last => simp at last
  · exact delivered

end

def sampleHead : Head where
  text := ofString "HTTP/1.1 200 OK\r\nTransfer-Encoding: chunked\r\n\r\n"
  before := ofString "HTTP/1.1 200 OK\r\n"
  field := ofString "Transfer-Encoding: chunked"
  after := crlf
  shape := by decide
  named := by decide
  first := by decide
  noLength := by decide
  plain := by decide
  ended := by decide
  status := by decide

def greeting : ChunkedResponse where
  head := sampleHead
  chunks := [⟨ofString "2", ofString "hi", by decide, forall_mem_of_all (by decide), by decide, by decide⟩]
  last := ⟨ofString "0", [], by decide, forall_mem_of_all (by decide), by decide, by decide⟩
  filled := by decide
  ending := rfl

def halves : Cut greeting.bytes where
  reads := [greeting.bytes.take 51, greeting.bytes.drop 51]
  filled := by decide +kernel
  whole := by simp

theorem greeting_delivered : Delivers greeting halves :=
  (delivers_iff greeting halves).mpr ⟨by simp [greeting, Chunk.Short, ofString], .inl rfl⟩

def twoZeros : Chunk where
  size := ofString "00"
  data := []
  sized := by decide
  hex := forall_mem_of_all (by decide)
  right := by decide
  bound := by decide

def doubtful : ChunkedResponse where
  head := sampleHead
  chunks := []
  last := twoZeros
  filled := by decide
  ending := rfl

def atOnce : Cut doubtful.bytes where
  reads := [doubtful.bytes]
  filled := by decide
  whole := by simp

theorem doubtful_refused : ¬ Delivers doubtful atOnce := by
  have codes : (readAll true .empty atOnce.reads).2 = [.error] := by decide +kernel
  rintro ⟨before, ends, _⟩
  rw [codes] at ends
  have last := congrArg List.getLast? ends
  rw [List.getLast?_append] at last
  cases last

end FluentBit.Http
