import FluentBit.Http.Client

/-! A body in chunks. Whatever has arrived of it, the turns over the chunks keep the data of those that
are complete, and wait for the rest of the first that is not. -/

set_option autoImplicit false

namespace FluentBit.Http

open List Ascii

structure Chunk where
  size : Bytes
  data : Bytes
  sized : size ≠ []
  hex : ∀ digit ∈ size, isHex digit = true
  right : number 16 size = data.length
  /-- The length of a text in memory is a `long`. -/
  bound : data.length < 2 ^ 63

def Chunk.text (chunk : Chunk) : Bytes := chunk.size ++ (crlf ++ (chunk.data ++ crlf))

def stream (chunks : List Chunk) (last : Chunk) : Bytes := chunks.flatMap Chunk.text ++ last.text

def contents (chunks : List Chunk) : Bytes := chunks.flatMap Chunk.data

def Chunk.Short (chunk : Chunk) : Prop := chunk.size.length ≤ 31

def Readable (chunks : List Chunk) (last : Chunk) : Prop :=
  (∀ chunk ∈ chunks, chunk.Short) ∧ (last.size.length = 1 ∨ last.size.length = 3)

/-- The response with other data, of which `front` is processed. -/
def Response.moved (r : Response) (front pending : Bytes) (payloadSize : Nat) : Response :=
  { r with data := front ++ pending, chunkProcessedEnd := front.length, payloadSize }

section

variable {r : Response} {front pending unread more : Bytes} {payloadSize : Nat} {chunk : Chunk}

theorem hex_plain {digit : UInt8} (hex : isHex digit = true) :
    digit ≠ 0 ∧ digit ≠ carriageReturn ∧ isSpace digit = false ∧ digit ≠ minus ∧ digit ≠ 0x2b ∧
      tolower digit ≠ letter 'x' := by
  revert hex
  apply forall_byte _ digit
  decide +kernel

theorem Chunk.absent_zero (chunk : Chunk) : 0 ∉ chunk.size := fun member => (hex_plain (chunk.hex _ member)).1 rfl

theorem Chunk.absent_return (chunk : Chunk) : carriageReturn ∉ chunk.size :=
  fun member => (hex_plain (chunk.hex _ member)).2.1 rfl

theorem magnitude_hex {digits : Bytes} (hex : ∀ digit ∈ digits, isHex digit = true) :
    magnitude digits = number 16 digits := by
  have all : digits.takeWhile isHex = digits := takeWhile_eq_self_iff.mpr hex
  cases digits with
  | nil => rfl
  | cons first digits =>
    cases digits with
    | nil => rw [magnitude, all]; simp
    | cons second digits =>
      have noMark := (hex_plain (hex second (by simp))).2.2.2.2.2
      rw [magnitude, if_neg (fun marked => noMark marked.2), all]

theorem Chunk.strtol_size : strtol chunk.size = ((chunk.data.length : Int), false) := by
  have value := magnitude_hex chunk.hex
  rw [chunk.right] at value
  have bound := chunk.bound
  unfold strtol
  cases size : chunk.size with
  | nil => exact absurd size chunk.sized
  | cons first digits =>
    obtain ⟨_, _, noSpace, noMinus, noPlus, _⟩ := hex_plain (chunk.hex first (by simp [size]))
    rw [size] at value
    rw [dropWhile_cons_of_neg (by simp [noSpace])]
    simp only [noMinus, noPlus, if_false, value]
    unfold clip longMax longMin
    rw [if_neg (by omega), if_neg (by omega)]

/-! ### A turn -/

theorem Chunk.line (chunk : Chunk) (more : Bytes) :
    strstr (chunk.size ++ (crlf ++ more)) crlf = some chunk.size.length :=
  strstr_line chunk.absent_zero chunk.absent_return

theorem chunkStart_long (long : ¬ chunk.Short) (more : Bytes) :
    chunkStart (r.moved front (chunk.size ++ (crlf ++ more)) payloadSize) =
      (r.moved front (chunk.size ++ (crlf ++ more)) payloadSize, some .error) := by
  unfold chunkStart Response.moved
  simp only [drop_left, chunk.line]
  rw [if_pos (.inl (Nat.lt_of_not_le long))]

theorem chunkStart_line (short : chunk.Short) :
    chunkStart (r.moved front (chunk.size ++ (crlf ++ more)) payloadSize) =
      let pending := chunk.size ++ (crlf ++ more)
      let r := r.moved front pending payloadSize
      if more.length < chunk.data.length + 2 then (r, some .more)
      else if (more.drop chunk.data.length).take 2 ≠ crlf then (r, some .error)
      else if chunk.data.length = 0 ∧ pending.length < 5 then (r, some .more) else if chunk.data.length = 0 ∧
          (pending[3]? ≠ some carriageReturn ∨ pending[4]? ≠ some newline) then (r, some .error) else
        let r := r.dropFraming (chunk.size.length + 2) chunk.data.length
        if chunk.data.length = 0 then (r, some .ok)
        else if 0 < r.data.length - r.chunkProcessedEnd then (r, none) else (r, some .chunkAvailable) := by
  have sized := length_pos_iff.mpr chunk.sized
  have pendingDrop : (r.moved front (chunk.size ++ (crlf ++ more)) payloadSize).data.drop
      (r.moved front (chunk.size ++ (crlf ++ more)) payloadSize).chunkProcessedEnd = chunk.size ++ (crlf ++ more) :=
    drop_left
  have behind (position : Nat) : (chunk.size ++ (crlf ++ more)).drop (chunk.size.length + 2 + position) =
      more.drop position := by
    rw [Nat.add_assoc, ← drop_drop, drop_left, Nat.add_comm]
    rfl
  have room : (chunk.size ++ (crlf ++ more)).length - (chunk.size.length + 2) = more.length := by
    simp only [length_append, length_cons, length_nil]
    omega
  unfold chunkStart
  simp only [pendingDrop, chunk.line, take_left, chunk.strtol_size]
  rw [if_neg (by unfold Chunk.Short at short; omega), if_neg (by simp), if_neg (by omega), Int.toNat_natCast, room, behind]

theorem consumeBytes_middle (middle back : Bytes) :
    consumeBytes (front ++ (middle ++ back)) front.length middle.length = front ++ back := by
  rw [consumeBytes, take_left, ← drop_drop, drop_left, drop_left]

theorem dropFraming_chunk (chunk : Chunk) (more : Bytes) :
    (r.moved front (chunk.text ++ more) payloadSize).dropFraming (chunk.size.length + 2) chunk.data.length =
      r.moved (front ++ chunk.data) more ((front ++ chunk.data ++ more).length - r.headersEnd.getD 0) := by
  have header := @consumeBytes_middle front (chunk.size ++ crlf) (chunk.data ++ crlf ++ more)
  have lineEnd : consumeBytes (front ++ chunk.data ++ (crlf ++ more)) (front.length + chunk.data.length) 2 =
      front ++ chunk.data ++ more := by
    rw [← length_append]
    exact consumeBytes_middle crlf more
  have whole : front ++ (chunk.text ++ more) = front ++ (chunk.size ++ crlf ++ (chunk.data ++ crlf ++ more)) := by
    simp [Chunk.text]
  have width : (chunk.size ++ crlf).length = chunk.size.length + 2 := by simp
  rw [width] at header
  have again : front ++ (chunk.data ++ crlf ++ more) = front ++ chunk.data ++ (crlf ++ more) := by simp
  unfold Response.dropFraming Response.moved
  simp only [whole, header, again, lineEnd, length_append]

theorem chunkStart_part (split : pending ++ unread = chunk.text) (missing : unread ≠ []) :
    chunkStart (r.moved front pending payloadSize) = (r.moved front pending payloadSize, some .more) ∨ ¬ chunk.Short ∧
        chunkStart (r.moved front pending payloadSize) = (r.moved front pending payloadSize, some .error) := by
  by_cases inLine : pending.length < chunk.size.length + 2
  · left
    have absent := strstr_line_part chunk.absent_zero chunk.absent_return split inLine
    unfold chunkStart Response.moved
    simp [absent]
  · obtain ⟨more, rfl⟩ : ∃ more, pending = chunk.size ++ (crlf ++ more) := by
      have line : chunk.size ++ crlf <+: chunk.text := ⟨chunk.data ++ crlf, by simp [Chunk.text]⟩
      obtain ⟨more, whole⟩ := prefix_of_prefix_length_le line ⟨unread, split⟩ (by simp; omega)
      exact ⟨more, by rw [← whole, append_assoc]⟩
    by_cases short : chunk.Short
    · left
      have rest : more ++ unread = chunk.data ++ crlf := by simpa [Chunk.text] using split
      have fewer : more.length < chunk.data.length + 2 := by
        have lengths := congrArg List.length rest
        have positive := length_pos_iff.mpr missing
        simp only [length_append, length_cons, length_nil] at lengths
        omega
      rw [chunkStart_line short, if_pos fewer]
    · exact .inr ⟨short, chunkStart_long short more⟩

theorem chunkStart_chunk (short : chunk.Short) (filled : chunk.data ≠ []) (more : Bytes) :
    chunkStart (r.moved front (chunk.text ++ more) payloadSize) =
      (r.moved (front ++ chunk.data) more ((front ++ chunk.data ++ more).length - r.headersEnd.getD 0),
        if more = [] then some .chunkAvailable else none) := by
  have positive := length_pos_iff.mpr filled
  have whole : chunk.text ++ more = chunk.size ++ (crlf ++ (chunk.data ++ (crlf ++ more))) := by simp [Chunk.text]
  have framed := @dropFraming_chunk r front payloadSize chunk more
  rw [whole] at framed
  rw [whole, chunkStart_line short]
  simp only [framed]
  rw [if_neg (by simp), if_neg (by rw [drop_left]; simp), if_neg (by omega), if_neg (by omega), if_neg (by omega)]
  cases more with
  | nil | cons byte more => simp [Response.moved]

theorem Chunk.ending (chunk : Chunk) :
    (chunk.size ++ emptyLine)[3]? = some carriageReturn ∧ (chunk.size ++ emptyLine)[4]? = some newline ↔
      chunk.size.length = 1 ∨ chunk.size.length = 3 := by
  have noReturn := chunk.absent_return
  have sized := chunk.sized
  cases size : chunk.size with
  | nil => exact absurd size sized
  | cons first digits =>
    rw [size] at noReturn
    cases digits with
    | nil => simp
    | cons second digits =>
      cases digits with
      | nil => simp [show newline ≠ carriageReturn by decide]
      | cons third digits =>
        cases digits with
        | nil => simp
        | cons fourth digits =>
          have other : fourth ≠ carriageReturn := by
            rintro rfl
            exact noReturn (by simp)
          simp [other]

theorem chunkStart_last (short : chunk.Short) (empty : chunk.data = []) :
    chunkStart (r.moved front chunk.text payloadSize) = if chunk.size.length = 1 ∨ chunk.size.length = 3 then
        (r.moved front [] (front.length - r.headersEnd.getD 0), some .ok)
      else (r.moved front chunk.text payloadSize, some .error) := by
  have sized := length_pos_iff.mpr chunk.sized
  have whole : chunk.text = chunk.size ++ (crlf ++ crlf) := by simp [Chunk.text, empty]
  have framed := @dropFraming_chunk r front payloadSize chunk []
  rw [append_nil, empty, append_nil, append_nil, whole] at framed
  rw [whole, chunkStart_line short]
  simp only [empty, framed]
  rw [if_neg (by simp), if_neg (by simp), if_neg (by simp; omega)]
  by_cases ends : chunk.size.length = 1 ∨ chunk.size.length = 3
  · obtain ⟨third, fourth⟩ := chunk.ending.mpr ends
    rw [if_pos ends, if_neg (by rintro ⟨_, wrong | wrong⟩ <;> contradiction), if_pos length_nil]
  · have wrong := mt chunk.ending.mp ends
    rw [not_and_or] at wrong
    rw [if_neg ends, if_pos ⟨rfl, wrong⟩]

/-! ### All turns -/

theorem stream_cons (chunks : List Chunk) (last : Chunk) :
    stream (chunk :: chunks) last = chunk.text ++ stream chunks last := by
  simp [stream]

theorem Chunk.text_length : 4 < chunk.text.length := by
  have sized := length_pos_iff.mpr chunk.sized
  simp [Chunk.text]
  omega

/-- What the turns come to, when `unread` is to come: the rest is waited for, the body ends with the last
chunk, or the response is refused. -/
inductive Outcome (r : Response) (front : Bytes) (left : List Chunk) (last : Chunk) (unread : Bytes) :
    Response × Code → Prop where
  | waits {done rest : List Chunk} {pending : Bytes} {payloadSize : Nat} {code : Code} (parts : left = done ++ rest)
      (short : ∀ chunk ∈ done, chunk.Short) (awaited : pending ++ unread = stream rest last) (missing : unread ≠ [])
      (goesOn : code = .more ∨ code = .chunkAvailable) :
      Outcome r front left last unread (r.moved (front ++ contents done) pending payloadSize, code)
  | ends (all : unread = []) (readable : Readable left last) :
      Outcome r front left last unread
        (r.moved (front ++ contents left) [] ((front ++ contents left).length - r.headersEnd.getD 0), .ok)
  | fails {later : Response} (wrong : ¬ Readable left last) : Outcome r front left last unread (later, .error)

theorem Outcome.cons {left : List Chunk} {last : Chunk} {result : Response × Code} (short : chunk.Short)
    (outcome : Outcome r (front ++ chunk.data) left last unread result) :
    Outcome r front (chunk :: left) last unread result := by
  have joined (chunks : List Chunk) : front ++ chunk.data ++ contents chunks = front ++ contents (chunk :: chunks) := by
    simp [contents]
  cases outcome with
  | waits parts shortDone awaited missing goesOn =>
    rw [joined]
    refine .waits (by rw [parts]; rfl) ?_ awaited missing goesOn
    intro one member
    cases mem_cons.mp member with
    | inl same => exact same ▸ short
    | inr later => exact shortDone one later
  | ends all readable =>
    rw [joined]
    refine .ends all ⟨?_, readable.2⟩
    intro one member
    cases mem_cons.mp member with
    | inl same => exact same ▸ short
    | inr later => exact readable.1 one later
  | fails wrong =>
    apply Outcome.fails
    intro readable
    exact wrong ⟨fun one member => readable.1 one (mem_cons_of_mem _ member), readable.2⟩

variable {later : Response} {fuel : Nat}

theorem chunkTurns_stop {code : Code} (turn : chunkStart r = (later, some code)) :
    chunkTurns (fuel + 1) r = (later, code) := by
  simp [chunkTurns, turn]

theorem chunkTurns_next (turn : chunkStart r = (later, none)) : chunkTurns (fuel + 1) r = chunkTurns fuel later := by
  simp [chunkTurns, turn]

theorem Outcome.part {left : List Chunk} {last : Chunk} {missing : Bytes} (fuel : Nat)
    (split : pending ++ missing = chunk.text) (some : missing ≠ []) (awaited : pending ++ unread = stream left last)
    (more : unread ≠ []) (first : Readable left last → chunk.Short) :
    Outcome r front left last unread (chunkTurns (fuel + 1) (r.moved front pending payloadSize)) := by
  cases @chunkStart_part r front pending missing payloadSize chunk split some with
  | inl waits =>
    have stays : front = front ++ contents [] := by simp [contents]
    rw [chunkTurns_stop waits]
    conv => arg 6; rw [stays]
    exact .waits rfl (by simp) awaited more (.inl rfl)
  | inr fails =>
    rw [chunkTurns_stop fails.2]
    exact .fails (mt first fails.1)

/-- The chunks at hand are taken off and the rest is awaited. -/
theorem chunkTurns_outcome {left : List Chunk} {last : Chunk} (filled : ∀ chunk ∈ left, chunk.data ≠ [])
    (empty : last.data = []) {fuel : Nat} (enough : pending.length < fuel)
    (awaited : pending ++ unread = stream left last) :
    Outcome r front left last unread (chunkTurns fuel (r.moved front pending payloadSize)) := by
  induction left generalizing front pending payloadSize fuel with
  | nil =>
    obtain ⟨fuel, rfl⟩ := Nat.exists_eq_add_of_lt enough
    have whole : pending ++ unread = last.text := awaited
    by_cases all : unread = []
    · obtain rfl : pending = last.text := by rw [← whole, all, append_nil]
      by_cases short : last.Short
      · have turn := @chunkStart_last r front payloadSize last short empty
        split at turn
        next ends =>
          rw [chunkTurns_stop turn]
          have ended := @Outcome.ends r front [] last unread all ⟨by simp, ends⟩
          simpa [contents] using ended
        next wrong =>
          rw [chunkTurns_stop turn]
          exact .fails fun readable => wrong readable.2
      · rw [Chunk.text, chunkTurns_stop (chunkStart_long short _)]
        apply Outcome.fails
        intro readable
        obtain _ | _ := readable.2 <;> exact short (by unfold Chunk.Short; omega)
    · apply Outcome.part _ whole all awaited all
      intro readable
      obtain _ | _ := readable.2 <;> unfold Chunk.Short <;> omega
  | cons chunk left ih =>
    obtain ⟨fuel, rfl⟩ := Nat.exists_eq_add_of_lt enough
    have whole : pending ++ unread = chunk.text ++ stream left last := by rw [awaited, stream_cons]
    by_cases inside : pending.length < chunk.text.length
    · obtain ⟨missing, split⟩ : pending <+: chunk.text :=
        prefix_of_prefix_length_le ⟨unread, whole⟩ ⟨_, rfl⟩ (Nat.le_of_lt inside)
      have some : missing ≠ [] := by
        rintro rfl
        rw [← split, append_nil] at inside
        omega
      have behind : unread = missing ++ stream left last := by
        rw [← split, append_assoc] at whole
        exact append_cancel_left whole
      apply Outcome.part _ split some awaited
      · rw [behind]
        simp [some]
      · intro readable
        exact readable.1 chunk (by simp)
    · obtain ⟨more, rfl⟩ : chunk.text <+: pending :=
        prefix_of_prefix_length_le ⟨_, rfl⟩ ⟨unread, whole⟩ (Nat.le_of_not_lt inside)
      have rest : more ++ unread = stream left last := by
        rw [append_assoc] at whole
        exact append_cancel_left whole
      by_cases short : chunk.Short
      · have turn := @chunkStart_chunk r front payloadSize chunk short (filled chunk (by simp)) more
        cases more with
        | nil =>
          have last_text := last.text_length
          have missing : unread ≠ [] := by
            rintro rfl
            have nothing := congrArg List.length rest
            simp only [stream, length_append, length_nil] at nothing
            omega
          rw [chunkTurns_stop turn]
          have single : front ++ chunk.data = front ++ contents [chunk] := by simp [contents]
          rw [single]
          apply Outcome.waits (by rfl : chunk :: left = [chunk] ++ left) (by simpa using short) rest missing (.inr rfl)
        | cons byte more =>
          rw [chunkTurns_next turn]
          apply Outcome.cons short
          apply ih (fun one member => filled one (mem_cons_of_mem _ member)) _ rest
          simp only [length_append]
          have text := chunk.text_length
          omega
      · have refused := @chunkStart_long r front payloadSize chunk short (chunk.data ++ crlf ++ more)
        have text : chunk.text ++ more = chunk.size ++ (crlf ++ (chunk.data ++ crlf ++ more)) := by simp [Chunk.text]
        rw [text, chunkTurns_stop refused]
        exact .fails fun readable => short (readable.1 chunk (by simp))

end

end FluentBit.Http
