import FluentBit.Gzip.OptionalHeaders

/-! A member that is fed in pieces: which contexts are reached, and which way of cutting the member makes
`flb_gzip_decompressor_dispatch` fail. -/

set_option autoImplicit false

namespace FluentBit.Gzip

open List Nat

section

variable (member : Member) (miniz : Miniz) (At : miniz.State → Nat → Nat → Prop)

inductive Reached : Context miniz → Bytes → Bytes → Prop
  | start {context : Context miniz} (state : context.state = .expectingHeader) :
      Reached context (member.file miniz) []
  | fields {stream : miniz.State} {extra name : Option Bytes} {buffer : Bytes}
      (left : member.Left extra name) :
      Reached (member.waiting miniz stream extra name buffer) (member.ahead miniz extra name) []
  | body {context : Context miniz} {read written : Nat} (state : context.state = .expectingBody)
      (place : At context.stream read written) (right : member.HeaderRead miniz) :
      Reached context (member.body.drop read ++ member.footer) (member.data.take written)
  | footer {context : Context miniz} (state : context.state = .expectingFooter) (right : member.HeaderRead miniz) :
      Reached context member.footer member.data
  | done {context : Context miniz} (state : context.state = .expectingHeader) (right : member.HeaderRead miniz) :
      Reached context [] member.data

def Member.left (rest out : Bytes) : Nat := rest.length + (member.data.length - out.length)

/-- What becomes of a context with some work, where `unfed` is to come. -/
inductive Dispatched (context : Context miniz) (unfed out : Bytes) (work : Nat) : Int × Bytes × Context miniz → Prop
  | short {next : Context miniz} (state : context.state = .expectingHeader)
      (few : context.buffer.length < headerSize) : Dispatched context unfed out work (failure, [], next)
  | wrong {next : Context miniz} (wrong : ¬ member.HeaderRead miniz) :
      Dispatched context unfed out work (corruptedHeader, [], next)
  | bare {next : Context miniz} (bare : member.Bare) (cut : unfed.length = member.rest.length) :
      Dispatched context unfed out work (failure, [], next)
  | goes {next : Context miniz} {output rest : Bytes} (reached : Reached member miniz At next rest (out ++ output))
      (bytes : next.buffer ++ unfed = rest) (start : next.state = .expectingHeader → next.buffer = [])
      (less : unfed = [] → member.left rest (out ++ output) < work)
      (long : context.state = .expectingHeader → headerSize ≤ context.buffer.length)
      (covered : member.Bare → unfed.length ≠ member.rest.length) :
      Dispatched context unfed out work (success, output, next)

end

section

variable {member : Member} {miniz : Miniz} {At : miniz.State → Nat → Nat → Prop} {context : Context miniz}
  {unfed out output : Bytes} {room : Nat}

private theorem fromFooter_footer (state : context.state = .expectingFooter)
    (bytes : context.buffer ++ unfed = member.footer) :
    ∃ next, fromFooter (success, output, context) = (success, output, next) ∧
      ((next = context ∧ unfed ≠ []) ∨ (next.state = .expectingHeader ∧ next.buffer = [] ∧ unfed = [])) := by
  have length := congrArg List.length bytes
  rw [length_append, Member.length_footer] at length
  rw [fromFooter, if_pos ⟨rfl, state⟩, processFooter]
  by_cases few : context.buffer.length < 8
  · rw [if_pos few]
    refine ⟨context, rfl, Or.inl ⟨rfl, ?_⟩⟩
    intro empty
    rw [empty, length_nil] at length
    omega
  · rw [if_neg few]
    refine ⟨_, rfl, Or.inr ⟨rfl, ?_, ?_⟩⟩
    · exact drop_eq_nil_iff.mpr (by omega)
    · exact length_eq_zero_iff.mp (by omega)

private theorem fromBody_body (inflates : Inflates miniz At member.body member.data) {read written : Nat}
    (state : context.state = .expectingBody) (place : At context.stream read written)
    (right : member.HeaderRead miniz) (bytes : context.buffer ++ unfed = member.body.drop read ++ member.footer)
    (nonempty : context.buffer ≠ []) (short : context.buffer.length < 2 ^ 32) (roomy : 0 < room ∧ room < 2 ^ 32) :
    ∃ output next rest, fromBody room (success, context) = (success, output, next) ∧
      Reached member miniz At next rest (member.data.take written ++ output) ∧ next.buffer ++ unfed = rest ∧
      (next.state = .expectingHeader → next.buffer = []) ∧
      (unfed = [] → member.left rest (member.data.take written ++ output) <
        member.left (member.body.drop read ++ member.footer) (member.data.take written)) := by
  have input : context.buffer <+: member.body.drop read ++ member.footer := ⟨unfed, bytes⟩
  obtain ⟨taken, inside, partOf, outcome⟩ := inflates.next place nonempty input roomy.1
  have run : miniz.run context.stream context.buffer room .partialFlush =
      miniz.inflate context.stream context.buffer room .partialFlush := by
    rw [Miniz.run, mod_eq_of_lt short, take_length, mod_eq_of_lt roomy.2]
  generalize result_eq : miniz.inflate context.stream context.buffer room .partialFlush = result at *
  have behind : context.buffer.length - (context.buffer.length % 2 ^ 32 - result.used) = result.used := by
    rw [mod_eq_of_lt short]
    omega
  have unread : context.buffer.drop result.used ++ unfed = member.body.drop (read + result.used) ++ member.footer := by
    have dropped := congrArg (List.drop result.used) bytes
    rwa [drop_append_of_le_length taken, drop_append_of_le_length (by rw [length_drop]; omega), drop_drop] at dropped
  have written_eq : member.data.take written ++ result.output = member.data.take (written + result.output.length) := by
    rw [take_add, ← prefix_iff_eq_take.mp partOf]
  have few : result.output.length ≤ member.data.length - written := by
    have length := partOf.length_le
    rwa [length_drop] at length
  rw [fromBody, if_pos ⟨rfl, state⟩, processBodyChunk, if_neg (Nat.ne_of_gt roomy.1), run]
  simp only [behind]
  rcases outcome with ⟨ends, allRead, allWritten⟩ | ⟨goesOn, placed, progress⟩
  · have noError : ¬ (result.status ≠ .ok ∧ result.status ≠ .streamEnd) := fun error => error.2 ends
    rw [if_neg noError, if_pos ends]
    rw [allRead, drop_length, nil_append] at unread
    have all : member.data.take written ++ result.output = member.data := by
      rw [written_eq, allWritten, take_length]
    obtain ⟨next, footer, after⟩ := @fromFooter_footer member miniz
      { context with buffer := context.buffer.drop result.used, stream := result.next, state := .expectingFooter } unfed
      result.output rfl unread
    rw [footer]
    rcases after with ⟨rfl, more⟩ | ⟨isHeader, empty, noMore⟩
    · refine ⟨_, _, member.footer, rfl, ?_, unread, ?_, fun noMore => absurd noMore more⟩
      · rw [all]
        exact .footer rfl right
      · intro isHeader
        cases isHeader
    · refine ⟨_, _, [], rfl, ?_, by rw [empty, noMore]; rfl, fun _ => empty, ?_⟩
      · rw [all]
        exact .done isHeader right
      · intro _
        simp only [Member.left, all, length_append, Member.length_footer, length_nil]
        omega
  · have noError : ¬ (result.status ≠ .ok ∧ result.status ≠ .streamEnd) := fun error => error.1 goesOn
    have open_ : ¬ result.status = .streamEnd := by
      rw [goesOn]
      decide
    rw [if_neg noError, if_neg open_, fromFooter, if_neg (by rw [state]; decide)]
    refine ⟨_, _, _, rfl, ?_, unread, ?_, ?_⟩
    · rw [written_eq]
      exact .body state placed right
    · intro isHeader
      exact absurd (state.symm.trans isHeader) (by decide)
    · intro _
      simp only [Member.left, written_eq, length_append, length_take, length_drop, Member.length_footer]
      omega

private theorem fromBody_bare (inflates : Inflates miniz At member.body member.data)
    (state : context.state = .expectingBody)
    (stream : context.stream = miniz.start) (empty : context.buffer = []) (roomy : 0 < room ∧ room < 2 ^ 32) :
    ∃ next, fromBody room (success, context) = (failure, [], next) := by
  have run : miniz.run context.stream context.buffer room .partialFlush =
      miniz.inflate miniz.start [] room .partialFlush := by
    rw [Miniz.run, stream, empty, mod_eq_of_lt roomy.2]
    rfl
  have status := inflates.empty room roomy.1
  have error : (miniz.inflate miniz.start [] room .partialFlush).status ≠ .ok ∧
      (miniz.inflate miniz.start [] room .partialFlush).status ≠ .streamEnd := by
    rw [status]
    decide
  rw [fromBody, if_pos ⟨rfl, state⟩, processBodyChunk, if_neg (Nat.ne_of_gt roomy.1), run]
  simp only [if_pos error]
  rw [fromFooter, if_neg fun both => absurd both.1 (by decide)]
  exact ⟨_, rfl⟩

variable (framed : member.Framed) (valid : member.Valid) (inflates : Inflates miniz At member.body member.data)
  (short : (member.file miniz).length < 2 ^ 32) (roomy : 0 < room ∧ room < 2 ^ 32)

theorem length_rest_le : member.rest.length ≤ (member.file miniz).length := by
  simp only [Member.file, length_append]
  omega

private theorem fromBody_other {status : Int} (other : status ≠ success ∨
    (context.state ≠ .expectingBody ∧ context.state ≠ .expectingFooter)) :
    fromBody room (status, context) = (status, [], context) := by
  rw [fromBody, if_neg, fromFooter, if_neg]
  · rintro ⟨good, state⟩
    rcases other with bad | ⟨-, noFooter⟩
    · exact bad good
    · exact noFooter state
  · rintro ⟨good, state⟩
    rcases other with bad | ⟨noBody, -⟩
    · exact bad good
    · exact noBody state

include framed valid inflates short roomy

private theorem fromOptionalHeaders_fields {stream : miniz.State} {extra name : Option Bytes} {buffer : Bytes}
    {work : Nat} (left : member.Left extra name) (bytes : buffer ++ unfed = member.ahead miniz extra name)
    (fresh : buffer = [] → extra = member.extra ∧ name = member.name)
    (long : context.state = .expectingHeader → headerSize ≤ context.buffer.length)
    (enough : member.left member.rest [] ≤ work) : Dispatched member miniz At context unfed [] work
      (fromOptionalHeaders room (success, member.waiting miniz stream extra name buffer)) := by
  have fields := @processOptionalHeaders_waiting member miniz stream extra name buffer unfed framed valid left bytes fresh
  rw [fromOptionalHeaders, if_pos ⟨rfl, rfl⟩]
  generalize processOptionalHeaders (member.waiting miniz stream extra name buffer) = result at fields
  cases fields with
  | waits left bytes more notBare =>
    rw [fromBody_other (Or.inr (by simp [Member.waiting]))]
    exact .goes (.fields left) bytes (fun same => by cases same) (fun noMore => absurd noMore more) long fun bare same => notBare same bare
  | corrupted wrong =>
    rw [fromBody_other (Or.inl (by decide))]
    exact .wrong wrong
  | @body gzipHeader buffer whole right bare =>
    by_cases empty : buffer = []
    · have cut : unfed.length = member.rest.length := by rw [← whole, empty, nil_append]
      obtain ⟨next, refused⟩ := @fromBody_bare member miniz At
        { state := .expectingBody, gzipHeader, stream := miniz.start, buffer } room inflates rfl rfl empty roomy
      rw [refused]
      exact .bare (bare empty) cut
    · have positive := length_pos_iff.mpr empty
      have length := congrArg List.length whole
      have within := @length_rest_le member miniz
      rw [length_append] at length
      obtain ⟨output, next, rest, run, reached, unread, start, less⟩ := @fromBody_body member miniz At
        { state := .expectingBody, gzipHeader, stream := miniz.start, buffer } unfed room inflates 0 0 rfl inflates.start
        right whole empty (by simp only; omega) roomy
      rw [run]
      refine .goes reached unread start ?_ long ?_
      · intro noMore
        exact Nat.lt_of_lt_of_le (less noMore) enough
      · intro _
        omega

theorem dispatch_reached {rest : Bytes} (reached : Reached member miniz At context rest out)
    (bytes : context.buffer ++ unfed = rest) (nonempty : context.buffer ≠ []) :
    Dispatched member miniz At context unfed out (member.left rest out) (dispatch context room) := by
  have positive := length_pos_iff.mpr nonempty
  have length := congrArg List.length bytes
  have within := @length_rest_le member miniz
  rw [length_append] at length
  rw [dispatch, if_neg nonempty]
  cases reached with
  | start state =>
    rw [if_pos ⟨rfl, state⟩, processHeader]
    by_cases few : context.buffer.length < headerSize
    · rw [if_pos few, fromOptionalHeaders, if_neg fun both => absurd both.1 (by decide),
        fromBody_other (Or.inl (by decide))]
      exact .short state few
    · rw [if_neg few]
      have front : context.buffer.take headerSize = member.base member.flags := by
        have taken := congrArg (List.take headerSize) bytes
        rwa [take_append_of_le_length (by omega), Member.file, Member.header, append_assoc,
          take_left' (Member.length_base _)] at taken
      have behind : context.buffer.drop headerSize ++ unfed = member.ahead miniz member.extra member.name := by
        have dropped := congrArg (List.drop headerSize) bytes
        rw [drop_append_of_le_length (by omega), Member.file, Member.header, append_assoc,
          drop_left' (Member.length_base _), framed.comment] at dropped
        simpa [Member.ahead, textBytes] using dropped
      have flags : member.flags = flagByte member.text member.headerCrc member.extra.isSome member.name.isSome false := by
        rw [Member.flags, framed.comment]
        rfl
      have waiting : ({ context with
          state := .expectingOptionalHeaders, gzipHeader := member.base member.flags,
          buffer := context.buffer.drop headerSize } : Context miniz) =
          member.waiting miniz context.stream member.extra member.name (context.buffer.drop headerSize) := by
        rw [flags]
        rfl
      have magic : (member.base member.flags).take 2 = [0x1f, 0x8b] := rfl
      have method : (member.base member.flags)[2]? = some 8 := rfl
      have reserved : ({ context with
          gzipHeader := member.base member.flags,
          buffer := context.buffer.drop headerSize } : Context miniz).headerFlags &&& 0xe0 = 0 := flagByte_reserved ..
      simp only [front, magic, method, reserved, ne_eq, not_true, if_false, waiting]
      apply fromOptionalHeaders_fields framed valid inflates short roomy (Or.inl ⟨rfl, rfl⟩) behind
      · exact fun _ => ⟨rfl, rfl⟩
      · exact fun _ => Nat.not_lt.mp few
      · simp only [Member.left, length_nil]
        omega
  | fields left =>
    rw [if_neg fun both => by cases both.2]
    apply fromOptionalHeaders_fields framed valid inflates short roomy left bytes
    · exact fun empty => absurd empty nonempty
    · exact fun same => by cases same
    · simp only [Member.left, Member.ahead, length_append, length_nil]
      omega
  | @body _ read written state place right =>
    rw [if_neg fun both => absurd (state.symm.trans both.2) (by decide), fromOptionalHeaders,
      if_neg fun both => absurd (state.symm.trans both.2) (by decide)]
    simp only [Member.rest, length_append, length_drop] at length within
    obtain ⟨output, next, rest, run, reached, unread, start, less⟩ :=
      fromBody_body inflates state place right bytes nonempty (by omega) roomy
    rw [run]
    refine .goes reached unread start less ?_ ?_
    · intro isHeader
      exact absurd (state.symm.trans isHeader) (by decide)
    · intro _
      rw [Member.rest, length_append]
      omega
  | footer state right =>
    rw [if_neg fun both => absurd (state.symm.trans both.2) (by decide), fromOptionalHeaders,
      if_neg fun both => absurd (state.symm.trans both.2) (by decide), fromBody,
      if_neg fun both => absurd (state.symm.trans both.2) (by decide)]
    have covered : member.Bare → unfed.length ≠ member.rest.length := by
      intro _
      rw [Member.rest, length_append]
      omega
    have long : context.state = .expectingHeader → headerSize ≤ context.buffer.length := by
      intro isHeader
      exact absurd (state.symm.trans isHeader) (by decide)
    obtain ⟨next, run, after⟩ := @fromFooter_footer member miniz context unfed [] state bytes
    rw [run]
    rcases after with ⟨rfl, more⟩ | ⟨isHeader, empty, noMore⟩
    · refine .goes ?_ bytes ?_ (fun noMore => absurd noMore more) long covered
      · rw [append_nil]
        exact .footer state right
      · intro isHeader
        exact absurd (state.symm.trans isHeader) (by decide)
    · have ended : Reached member miniz At next [] (member.data ++ []) := by
        rw [append_nil]
        exact .done isHeader right
      refine .goes ended (by rw [empty, noMore]; rfl) (fun _ => empty) ?_ long covered
      · intro _
        simp only [Member.left, append_nil, Member.length_footer, length_nil]
        omega
  | done state right =>
    rw [length_nil] at length
    omega

end

end FluentBit.Gzip
