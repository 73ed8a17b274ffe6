import FluentBit.Foundation.Runs
import FluentBit.Foundation.Streaming
import FluentBit.InForward.Connection

/-! How the forward input cuts its stream into messages. Bytes are fed to the unpacker in parts, and
of the messages that end in one part each counts with the size of the first. -/

set_option autoImplicit false

namespace FluentBit.InForward

open List Nat Runs
open Msgpack (Object)
open Event (embedStackSize)

structure Message where
  bytes : Bytes
  root : Object
  complete : Msgpack.unpack embedStackSize bytes = .done root []

def Message.size (message : Message) : Nat := message.bytes.length

variable (message : Message)

@[simp] theorem Message.length_bytes : message.bytes.length = message.size := rfl

def bytesOf (messages : List Message) : Bytes := messages.flatMap Message.bytes

def Starts (left : Bytes) : List Message → Prop
  | [] => left = []
  | message :: _ => left <+: message.bytes ∧ left.length < message.size

structure Cut (messages : List Message) (bytes : Bytes) (done later : List Message) (left : Bytes) : Prop where
  parts : messages = done ++ later
  read : bytes = bytesOf done ++ left
  part : Starts left later

def feedOf (stop : Nat) : Nat := (stop - 1) / eachRecvSize

def countedSize (feed size : Nat) : Option (Nat × Nat) → Nat
  | none => size
  | some (last, bytes) => if last = feed then bytes else size

def countedFrom : Nat → Option (Nat × Nat) → List Nat → Nat
  | _, _, [] => 0
  | start, last, size :: sizes =>
    let feed := feedOf (start + size)
    let bytes := countedSize feed size last
    bytes + countedFrom (start + size) (some (feed, bytes)) sizes

def sizesWithin : Nat → Bytes → List Nat
  | 0, _ => []
  | fuel + 1, bytes =>
    match Msgpack.unpack embedStackSize bytes with
    | .done _ rest => (bytes.length - rest.length) :: sizesWithin fuel rest
    | _ => []

def sizes (bytes : Bytes) : List Nat := sizesWithin bytes.length bytes

def Even (buf : Bytes) : Prop := countedFrom 0 none (sizes buf) = (sizes buf).sum

instance (buf : Bytes) : Decidable (Even buf) := inferInstanceAs (Decidable (_ = _))

def ReadsEven (input : Input) (session : Session) (incoming : Bytes) : Prop :=
  session.closed = false → arriving input session incoming ≠ [] →
    Even (session.conn.buf ++ arriving input session incoming)

/-! ### Messages -/

@[simp] theorem bytesOf_nil : bytesOf [] = [] := rfl

@[simp] theorem bytesOf_cons (messages : List Message) :
    bytesOf (message :: messages) = message.bytes ++ bytesOf messages := flatMap_cons

@[simp] theorem bytesOf_append (front back : List Message) : bytesOf (front ++ back) = bytesOf front ++ bytesOf back :=
  flatMap_append

private theorem length_bytesOf (messages : List Message) :
    (bytesOf messages).length = (messages.map Message.size).sum := by
  induction messages with
  | nil => rfl
  | cons message messages ih => simp [ih]

theorem Message.size_pos : 0 < message.size := by
  apply length_pos_iff.mpr
  intro empty
  have complete := message.complete
  rw [empty] at complete
  cases complete

theorem Message.unpack (more : Bytes) :
    Msgpack.unpack embedStackSize (message.bytes ++ more) = .done message.root more := by
  obtain ⟨used, split, _, again⟩ := Msgpack.unpack_stable message.complete
  rw [append_nil] at split
  rw [split]
  exact again more

variable {messages done later : List Message} {left bytes : Bytes}

theorem Starts.short (starts : Starts left messages) : ∃ rest, Msgpack.unpack embedStackSize left = .short rest := by
  cases messages with
  | nil =>
    rw [starts]
    exact ⟨_, rfl⟩
  | cons message messages =>
    obtain ⟨⟨more, split⟩, shorter⟩ := starts
    have whole := message.complete
    rw [← split] at whole
    apply Msgpack.unpack_part whole
    rintro rfl
    rw [← message.length_bytes, ← split, append_nil] at shorter
    exact Nat.lt_irrefl _ shorter

private theorem cut_exists (sent : bytes <+: bytesOf messages) :
    ∃ done later left, Cut messages bytes done later left := by
  induction messages generalizing bytes with
  | nil => exact ⟨[], [], [], rfl, eq_nil_of_prefix_nil sent, rfl⟩
  | cons message messages ih =>
    rw [bytesOf_cons] at sent
    by_cases whole : message.size ≤ bytes.length
    · obtain ⟨rest, rfl⟩ : message.bytes <+: bytes := prefix_of_prefix_length_le (prefix_append _ _) sent whole
      obtain ⟨done, later, left, parts, read, part⟩ := ih ((prefix_append_right_inj _).mp sent)
      refine ⟨message :: done, later, left, ?_, ?_, part⟩
      · rw [parts]
        rfl
      · rw [read, bytesOf_cons, append_assoc]
    · have inside : bytes <+: message.bytes :=
        prefix_of_prefix_length_le sent (prefix_append _ _) (by rw [message.length_bytes]; omega)
      exact ⟨[], message :: messages, bytes, rfl, rfl, inside, by omega⟩

theorem Cut.append {messages : List Message} {bytes more : Bytes} {done later next further : List Message} {left rest : Bytes}
    (first : Cut messages bytes done later left) (second : Cut later (left ++ more) next further rest) :
    Cut messages (bytes ++ more) (done ++ next) further rest where
  parts := by rw [first.parts, second.parts, append_assoc]
  read := by rw [first.read, append_assoc, second.read, bytesOf_append, append_assoc]
  part := second.part

private theorem sizesWithin_cut (part : Starts left later) {fuel : Nat} (enough : done.length ≤ fuel) :
    sizesWithin fuel (bytesOf done ++ left) = done.map Message.size := by
  induction done generalizing fuel with
  | nil =>
    cases fuel with
    | zero => rfl
    | succ fuel =>
      obtain ⟨rest, short⟩ := part.short
      simp [sizesWithin, short]
  | cons message done ih =>
    rw [length_cons] at enough
    obtain ⟨fuel, rfl⟩ : ∃ fewer, fuel = fewer + 1 := ⟨fuel - 1, by omega⟩
    simp [sizesWithin, message.unpack, ih (le_of_succ_le_succ enough)]

private theorem length_le_bytesOf (messages : List Message) : messages.length ≤ (bytesOf messages).length := by
  induction messages with
  | nil => exact Nat.le_refl _
  | cons message messages ih =>
    have := message.size_pos
    simp only [length_cons, bytesOf_cons, length_append, Message.length_bytes]
    omega

theorem Cut.sizes (cut : Cut messages bytes done later left) : sizes bytes = done.map Message.size := by
  have := length_le_bytesOf done
  rw [cut.read, InForward.sizes]
  exact sizesWithin_cut cut.part (by rw [length_append]; omega)

private theorem countedFrom_same {feed start bytes : Nat} {group more : List Nat} (positive : ∀ size ∈ group, 0 < size)
    (low : eachRecvSize * feed ≤ start) (high : start + group.sum ≤ eachRecvSize * (feed + 1)) :
    countedFrom start (some (feed, bytes)) (group ++ more) =
      group.length * bytes + countedFrom (start + group.sum) (some (feed, bytes)) more := by
  induction group generalizing start with
  | nil => simp
  | cons size group ih =>
    obtain ⟨some, others⟩ := forall_mem_cons.mp positive
    rw [sum_cons] at high
    have here : feedOf (start + size) = feed := by
      unfold feedOf eachRecvSize at *
      omega
    rw [cons_append, countedFrom, here]
    simp only [countedSize, if_true]
    rw [ih others (by omega) (by omega), length_cons, sum_cons, Nat.add_assoc start]
    rw [succ_mul]
    omega

private theorem countedFrom_group {feed start size : Nat} {last : Option (Nat × Nat)} {group more : List Nat}
    (before : ∀ other ∈ last, other.1 < feed) (positive : ∀ size ∈ group, 0 < size)
    (low : eachRecvSize * feed < start + size) (high : start + size + group.sum ≤ eachRecvSize * (feed + 1)) :
    countedFrom start last (size :: group ++ more) =
      (size :: group).length * size + countedFrom (start + (size :: group).sum) (some (feed, size)) more := by
  have here : feedOf (start + size) = feed := by
    unfold feedOf eachRecvSize at *
    omega
  have counts : countedSize feed size last = size := by
    cases last with
    | none => rfl
    | some last =>
      have earlier := before last rfl
      rw [countedSize, if_neg (by omega)]
  rw [cons_append, countedFrom, here]
  simp only [counts]
  rw [countedFrom_same positive (by omega) high, length_cons, sum_cons, succ_mul, ← Nat.add_assoc start]
  omega

/-! ### One call -/

section

variable {σ : Type} {handle : Object → σ → σ × Bool}

def serve (handle : Object → σ → σ × Bool) : List Message → σ → σ × Bool
  | [], world => (world, true)
  | message :: messages, world =>
    match handle message.root world with
    | (world, false) => (world, false)
    | (world, true) => serve handle messages world

def served (held : Bytes) (allUsed : Nat) : σ × Bool → Fed σ
  | (world, false) => .failed world
  | (world, true) => .fed held allUsed world

private theorem serve_append (front back : List Message) (world : σ) : serve handle (front ++ back) world =
      match serve handle front world with
      | (world, false) => (world, false)
      | (world, true) => serve handle back world := by
  induction front generalizing world with
  | nil => rfl
  | cons message front ih =>
    simp only [cons_append, serve]
    rcases handle message.root world with ⟨world, _ | _⟩
    · rfl
    · exact ih world

variable {left feed held : Bytes} {world : σ} {allUsed : Nat} {messages later done : List Message}

private theorem handleObjects_serve {message : Message} {bytes fuel : Nat} (part : Starts left later)
    (enough : messages.length < fuel) :
    handleObjects handle bytes fuel message.root (bytesOf messages ++ left) allUsed world =
      served left (allUsed + (message :: messages).length * bytes) (serve handle (message :: messages) world) := by
  induction messages generalizing message fuel allUsed world with
  | nil =>
    obtain ⟨fuel, rfl⟩ : ∃ fewer, fuel = fewer + 1 := ⟨fuel - 1, by omega⟩
    obtain ⟨rest, short⟩ := part.short
    rw [handleObjects, serve]
    rcases handle message.root world with ⟨world, _ | _⟩
    · rfl
    · simp [short, serve, served]
  | cons next messages ih =>
    rw [length_cons] at enough
    obtain ⟨fuel, rfl⟩ : ∃ fewer, fuel = fewer + 1 := ⟨fuel - 1, by omega⟩
    rw [handleObjects, serve]
    rcases handle message.root world with ⟨world, _ | _⟩
    · rfl
    · simp only [bytesOf_cons, append_assoc, next.unpack]
      rw [ih (by omega)]
      simp only [length_cons, succ_mul]
      congr 1
      omega

def firstSize : List Message → Nat
  | [] => 0
  | message :: _ => message.size

private theorem processFeed_serve (cut : Cut messages (held ++ feed) done later left) :
    processFeed handle feed held allUsed world =
      served left (allUsed + done.length * firstSize done) (serve handle done world) := by
  rw [processFeed, cut.read]
  cases done with
  | nil =>
    obtain ⟨rest, short⟩ := cut.part.short
    simp [short, serve, served]
  | cons message done =>
    simp only [bytesOf_cons, append_assoc, message.unpack]
    have enough : done.length < (bytesOf done ++ left).length + 1 := by
      have := length_le_bytesOf done
      rw [length_append]
      omega
    rw [handleObjects_serve cut.part enough, firstSize]
    congr 3
    rw [length_append, Message.length_bytes]
    omega

private theorem positive_sizes (messages : List Message) : ∀ size ∈ messages.map Message.size, 0 < size := by
  intro size inside
  obtain ⟨message, _, rfl⟩ := mem_map.mp inside
  exact message.size_pos

private theorem countedFrom_feed {start number : Nat} {last : Option (Nat × Nat)}
    (cut : Cut messages (held ++ feed) done later left) (starts : Starts held messages)
    (position : start + held.length = eachRecvSize * number) (short : feed.length ≤ eachRecvSize)
    (before : ∀ other ∈ last, other.1 < number) :
    ∃ next : Option (Nat × Nat), (∀ other ∈ next, other.1 < number + 1) ∧ ∀ more,
      countedFrom start last (done.map Message.size ++ more) =
        done.length * firstSize done + countedFrom (start + (done.map Message.size).sum) next more := by
  cases done with
  | nil =>
    refine ⟨last, fun other inside => lt_succ_of_lt (before other inside), ?_⟩
    intro more
    simp
  | cons message done =>
    refine ⟨some (number, message.size), ?_, ?_⟩
    · rintro other ⟨⟩
      exact lt_succ_self _
    · intro more
      have width := congrArg List.length cut.read
      rw [length_append, length_append, length_bytesOf, map_cons, sum_cons] at width
      have shorter : held.length < message.size := by
        have first := cut.parts
        rw [cons_append] at first
        rw [first] at starts
        exact starts.2
      have group := @countedFrom_group number start message.size last (done.map Message.size) more before
        (positive_sizes done) (by omega) (by unfold eachRecvSize at *; omega)
      rw [map_cons, firstSize, group, length_cons, length_cons, length_map]

private theorem processFeeds_serve {messages : List Message} {held rest : Bytes} {fuel allUsed start number : Nat}
    {last : Option (Nat × Nat)} {world : σ} (sent : held ++ rest <+: bytesOf messages) (starts : Starts held messages)
    (position : rest ≠ [] → start + held.length = eachRecvSize * number) (before : ∀ other ∈ last, other.1 < number)
    (enough : rest.length < fuel) : ∃ done later left, Cut messages (held ++ rest) done later left ∧
      processFeeds handle fuel rest held allUsed world =
        served left (allUsed + countedFrom start last (done.map Message.size)) (serve handle done world) := by
  induction fuel generalizing messages held rest allUsed start number last world with
  | zero => omega
  | succ fuel ih =>
    rw [processFeeds]
    split
    next empty =>
      subst empty
      exact ⟨[], messages, held, ⟨rfl, by simp, starts⟩, rfl⟩
    next some =>
      have split : rest.take eachRecvSize ++ rest.drop eachRecvSize = rest := take_append_drop _ _
      have width := congrArg List.length split
      rw [length_append] at width
      have fewer : (rest.drop eachRecvSize).length < rest.length := by
        have := length_pos_iff.mpr some
        rw [length_drop]
        unfold eachRecvSize
        omega
      rw [← split, ← append_assoc] at sent
      obtain ⟨done, later, left, cut⟩ := cut_exists ((prefix_append _ _).trans sent)
      have onward : left ++ rest.drop eachRecvSize <+: bytesOf later := by
        rw [cut.parts, cut.read, bytesOf_append, append_assoc] at sent
        exact (prefix_append_right_inj _).mp sent
      obtain ⟨next, within, counted⟩ := countedFrom_feed cut starts (position some) (length_take_le _ _) before
      have position' : rest.drop eachRecvSize ≠ [] →
          start + (done.map Message.size).sum + left.length = eachRecvSize * (number + 1) := by
        intro more
        have full : (rest.take eachRecvSize).length = eachRecvSize := by
          have := length_pos_iff.mpr more
          rw [length_drop] at this
          rw [length_take]
          omega
        have read := congrArg List.length cut.read
        rw [length_append, length_append, length_bytesOf, full] at read
        have := position some
        rw [mul_succ]
        omega
      rw [processFeed_serve cut]
      rcases outcome : serve handle done world with ⟨reached, _ | _⟩
      · -- a message of this part is refused
        obtain ⟨further, beyond, remaining, second⟩ := cut_exists onward
        refine ⟨done ++ further, beyond, remaining, ?_, ?_⟩
        · have whole := cut.append second
          rwa [append_assoc, split] at whole
        · rw [serve_append, outcome]
          rfl
      · obtain ⟨further, beyond, remaining, second, processed⟩ := @ih later left (rest.drop eachRecvSize)
          (allUsed + done.length * firstSize done) (start + (done.map Message.size).sum) (number + 1) next reached onward
          cut.part position' within (by omega)
        refine ⟨done ++ further, beyond, remaining, ?_, ?_⟩
        · have whole := cut.append second
          rwa [append_assoc, split] at whole
        · simp [served, processed, serve_append, outcome, counted, Nat.add_assoc]

private theorem adjustBuffer_eq_iff {buf : Bytes} {used : Nat} (cut : Cut messages buf done later left)
    (some : done ≠ [] → 0 < used) (none : done = [] → used = 0) :
    adjustBuffer buf used = left ↔ used = (done.map Message.size).sum := by
  have width := congrArg List.length cut.read
  rw [length_append, length_bytesOf] at width
  have total := length_bytesOf done
  unfold adjustBuffer
  constructor
  · intro kept
    by_cases empty : done = []
    · rw [none empty, empty]
      rfl
    · have positive := some empty
      have large := length_le_bytesOf done
      have := length_pos_iff.mpr empty
      have length := congrArg List.length kept
      split at length
      next dropped =>
        rw [length_drop] at length
        omega
      · omega
  · intro exactly
    by_cases empty : done = []
    · rw [none empty, if_neg (by omega), cut.read, empty, bytesOf_nil, nil_append]
    · have positive := some empty
      rw [if_pos ⟨by omega, positive⟩, exactly, ← total, cut.read, drop_left]

private theorem countedFrom_pos {start : Nat} {last : Option (Nat × Nat)} {message : Message} {messages : List Message}
    (positive : ∀ other ∈ last, 0 < other.2) : 0 < countedFrom start last ((message :: messages).map Message.size) := by
  have := message.size_pos
  rw [map_cons, countedFrom]
  cases last with
  | none =>
    simp only [countedSize]
    omega
  | some last =>
    have := positive last rfl
    simp only [countedSize]
    split <;> omega

private theorem processBuffer_serve {messages : List Message} {buf : Bytes} {world : σ}
    (sent : buf <+: bytesOf messages) :
    ∃ done later left, Cut messages buf done later left ∧ match serve handle done world with
      | (reached, false) => processBuffer handle buf world = (none, reached)
      | (reached, true) => ∃ rest, processBuffer handle buf world = (some rest, reached) ∧ (rest = left ↔ Even buf) := by
  have starts : Starts [] messages := by
    cases messages with
    | nil => rfl
    | cons message messages => exact ⟨ nil_prefix, message.size_pos⟩
  obtain ⟨done, later, left, cut, processed⟩ := @processFeeds_serve σ handle messages [] buf (buf.length + 1) 0 0 0 none world
    sent starts (fun _ => rfl) (fun _ impossible => by cases impossible) (lt_succ_self _)
  rw [nil_append] at cut
  refine ⟨done, later, left, cut, ?_⟩
  rw [processBuffer, processed]
  rcases serve handle done world with ⟨reached, _ | _⟩
  · rfl
  · refine ⟨_, rfl, ?_⟩
    rw [Even, cut.sizes, Nat.zero_add]
    apply adjustBuffer_eq_iff cut
    · intro nonempty
      obtain ⟨message, messages, rfl⟩ := exists_cons_of_ne_nil nonempty
      have := @countedFrom_pos 0 none message messages (fun _ impossible => by cases impossible)
      omega
    · rintro rfl
      rfl

end

/-! ### Runs -/

section

variable {input : Input}

def roots (handled : List Handled) : List Object := handled.map Handled.root

def EndsRefused (handled : List Handled) : Prop := ∃ message ∈ handled.getLast?, message.outcome.accepted = false

/-- The messages that are complete in the stream were handled, each once and in order, and the
buffer holds the bytes behind them; or the connection was closed at the first that is refused. -/
def Framed (messages : List Message) (session : Session) : Prop :=
  ∃ done later left, Cut messages session.stream done later left ∧
    ((roots session.handled = done.map Message.root ∧ session.conn.buf = left) ∨
      (session.closed = true ∧ EndsRefused session.handled ∧ roots session.handled <+: done.map Message.root))

private theorem serve_handleMessage (messages : List Message) (world : World) :
    match serve (handleMessage input) messages world with
    | (reached, true) => roots reached.handled = roots world.handled ++ messages.map Message.root
    | (reached, false) => EndsRefused reached.handled ∧
        roots reached.handled <+: roots world.handled ++ messages.map Message.root := by
  induction messages generalizing world with
  | nil => simp [serve]
  | cons message messages ih =>
    have added : roots (handleMessage input message.root world).1.handled = roots world.handled ++ [message.root] := by
      simp [handleMessage, roots]
    have last : ∃ handled ∈ (handleMessage input message.root world).1.handled.getLast?,
        handled.outcome.accepted = (handleMessage input message.root world).2 := by
      simp [handleMessage]
    rw [serve]
    revert added last
    rcases handleMessage input message.root world with ⟨next, _ | _⟩
    · intro added last
      refine ⟨last, ?_⟩
      rw [added]
      exact ⟨messages.map Message.root, by simp⟩
    · intro added _
      have later := ih next
      rw [added, append_assoc] at later
      exact later

theorem framed_opened (messages : List Message) : Framed messages (opened input) := by
  obtain ⟨done, later, left, cut⟩ := cut_exists ( nil_prefix (l := bytesOf messages))
  obtain ⟨complete, empty⟩ := append_eq_nil_iff.mp cut.read.symm
  obtain rfl : done = [] := by
    cases done with
    | nil => rfl
    | cons message done =>
      have := length_le_bytesOf (message :: done)
      rw [complete] at this
      cases this
  exact ⟨[], later, left, cut, .inl ⟨rfl, empty.symm⟩⟩

theorem Framed.event {session : Session} (framed : Framed messages session) {incoming : Bytes}
    (even : ReadsEven input session incoming) (sent : (fwConnEvent input incoming session).stream <+: bytesOf messages) :
    Framed messages (fwConnEvent input incoming session) := by
  obtain ⟨done, later, left, cut, known⟩ := framed
  rcases event_cases input incoming session with
    ⟨stream, handled, buf, closed⟩ | ⟨isOpen, arrived, stream, handled, result⟩
  · refine ⟨done, later, left, by rw [stream]; exact cut, ?_⟩
    rw [handled, buf]
    rcases known with whole | ⟨_, refused⟩
    · exact .inl whole
    · exact .inr ⟨closed, refused⟩
  · obtain ⟨same, rest⟩ : roots session.handled = done.map Message.root ∧ session.conn.buf = left := by
      rcases known with whole | ⟨closed, _⟩
      · exact whole
      · rw [isOpen] at closed
        cases closed
    rw [stream, cut.parts, cut.read, bytesOf_append, append_assoc] at sent
    have onward := (prefix_append_right_inj _).mp sent
    obtain ⟨next, further, remaining, second, processed⟩ := @processBuffer_serve World (handleMessage input) later
      (left ++ arriving input session incoming) { handled := session.handled, containOptions := false } onward
    have served := @serve_handleMessage input next { handled := session.handled, containOptions := false }
    refine ⟨done ++ next, further, remaining, by rw [stream]; exact cut.append second, ?_⟩
    rw [rest, fwProtProcess] at handled result
    rw [map_append, ← same, handled]
    revert processed served
    rcases serve (handleMessage input) next { handled := session.handled, containOptions := false } with ⟨reached, _ | _⟩
    · intro processed served
      simp only [processed] at result ⊢
      exact .inr ⟨result, served⟩
    · rintro ⟨kept, processed, exact⟩ served
      have evenly := even isOpen arrived
      rw [rest] at evenly
      simp only [processed] at result ⊢
      exact .inl ⟨served, result.2.trans (exact.mpr evenly)⟩

end

section

private def plainInput : Input where
  tagPrefix := none
  tag := none
  tagDefault := true
  bufferChunkSize := 64
  bufferMaxSize := 64
  encode := fun _ _ _ _ => some []
  decodes := fun _ _ => true
  appends := fun _ _ _ _ => true
  uncompress := some
  beyond := .nil
  nullText := fun _ => false

/-- `["a", []]` -/
private def shortMessage : Message := ⟨[0x92, 0xa1, 0x61, 0x90], .array [.str [0x61], .array []], rfl⟩

/-- `["ab", []]` -/
private def longMessage : Message := ⟨[0x92, 0xa2, 0x61, 0x62, 0x90], .array [.str [0x61, 0x62], .array []], rfl⟩

private def evenSession : Session :=
  Runs.after (fwConnEvent plainInput) (opened plainInput) [shortMessage.bytes ++ shortMessage.bytes ++ [0x92]]

private theorem evenSession_path : Runs.Path (fwConnEvent plainInput) (ReadsEven plainInput) (opened plainInput) evenSession := by
  apply path_after
  refine ⟨?_, trivial⟩
  intro _ _
  decide

private def unevenSession : Session :=
  Runs.after (fwConnEvent plainInput) (opened plainInput) [shortMessage.bytes ++ longMessage.bytes]

end

end FluentBit.InForward
