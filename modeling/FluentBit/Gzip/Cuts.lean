import FluentBit.Gzip.Streaming

/-! Streaming against one-shot decompression: when a member that is cut into pieces gives the text that
`flb_gzip_uncompress` gives, or is rejected like there. -/

set_option autoImplicit false

namespace FluentBit.Gzip

open List Option

def pieces (reads : List Read) : Bytes := reads.flatMap Read.piece

def Roomy (room : Nat) : Prop := 0 < room ∧ room < 2 ^ 32

structure Cut (member : Member) (miniz : Miniz) (reads : List Read) : Prop where
  bytes : pieces reads = member.file miniz
  roomy : ∀ read ∈ reads, Roomy read.room

def Continues (member : Member) : Nat → List Read → Prop
  | _, [] => True
  | fed, read :: reads =>
    (fed = 0 → read.piece ≠ [] → headerSize ≤ read.piece.length) ∧
      (member.Bare → fed + read.piece.length ≠ member.header.length) ∧
      Continues member (fed + read.piece.length) reads

def calls (rooms : List Nat) : List Read := rooms.map fun room => { piece := [], room }

def Eventually (miniz : Miniz) (reads : List Read) (result : Option Bytes) : Prop :=
  ∃ count, ∀ rooms, count ≤ rooms.length → (∀ room ∈ rooms, Roomy room) → streamed miniz (reads ++ calls rooms) = result

/-- In pieces a member gives the same text as at once, and with a wrong footer it is rejected both ways. -/
def Agrees (member : Member) (miniz : Miniz) (reads : List Read) : Prop :=
  (member.FooterRight miniz → Eventually miniz reads (flbGzipUncompress miniz (member.file miniz))) ∧
    (¬ member.FooterRight miniz →
      flbGzipUncompress miniz (member.file miniz) = none ∧ Eventually miniz reads none)

section

variable {member : Member} {miniz : Miniz} {At : miniz.State → Nat → Nat → Prop} {unfed : Bytes}
  {run : Context miniz × Bytes}

private theorem eventually_unique {reads : List Read} {left right : Option Bytes} (first : Eventually miniz reads left)
    (second : Eventually miniz reads right) : left = right := by
  obtain ⟨few, first⟩ := first
  obtain ⟨many, second⟩ := second
  have roomy : ∀ room ∈ List.replicate (few + many) 1, Roomy room := by
    intro room member
    rw [eq_of_mem_replicate member]
    exact ⟨by decide, by decide⟩
  rw [← first (List.replicate (few + many) 1) (by simp) roomy, ← second (List.replicate (few + many) 1) (by simp) roomy]

/-! ### A read -/

/-- A run on its way, where `unfed` is to come. -/
structure Live (member : Member) (miniz : Miniz) (At : miniz.State → Nat → Nat → Prop) (run : Context miniz × Bytes)
    (unfed : Bytes) : Prop where
  reached : Reached member miniz At run.1 (run.1.buffer ++ unfed) run.2
  start : run.1.state = .expectingHeader → run.1.buffer = []
  covered : member.Bare → unfed.length ≠ member.rest.length

theorem Reached.append {context : Context miniz} {rest out : Bytes}
    (reached : Reached member miniz At context rest out) (piece : Bytes) :
    Reached member miniz At (context.append piece) rest out := by
  cases reached with
  | start state => exact .start state
  | fields left => exact .fields left
  | body state place right => exact .body state place right
  | footer state right => exact .footer state right
  | done state right => exact .done state right

private theorem length_file : (member.file miniz).length =
    member.header.length + (member.crcBytes miniz).length + member.rest.length := by
  simp only [Member.file, length_append]
  omega

theorem length_header : headerSize ≤ member.header.length := by
  rw [Member.header, length_append, Member.length_base]
  omega

private theorem created_live : Live member miniz At (Context.create miniz, []) (member.file miniz) := by
  refine ⟨.start rfl, fun _ => rfl, ?_⟩
  intro _
  have file := @length_file member miniz
  have header := @length_header member
  rw [headerSize] at header
  omega

theorem Reached.before {context : Context miniz} {rest out : Bytes}
    (reached : Reached member miniz At context rest out) (whole : (member.file miniz).length ≤ rest.length) :
    context.state = .expectingHeader ∧ rest = member.file miniz := by
  have file := @length_file member miniz
  have header := @length_header member
  simp only [headerSize] at header
  cases reached with
  | start state => exact ⟨state, rfl⟩
  | fields left =>
    exfalso
    simp only [Member.header, Member.length_base, headerSize, length_append] at file
    simp only [Member.ahead, length_append] at whole
    rcases left with ⟨rfl, rfl⟩ | ⟨rfl, rfl⟩ | ⟨rfl, rfl⟩
    · omega
    · simp only [extraBytes, length_nil] at whole
      omega
    · simp only [extraBytes, textBytes, length_nil] at whole
      omega
  | body state place right =>
    simp only [Member.rest, length_append, length_drop] at file whole
    omega
  | footer state right =>
    simp only [Member.rest, length_append] at file whole
    omega
  | done state right =>
    rw [length_nil] at whole
    omega

theorem Reached.header {context : Context miniz} {rest out : Bytes}
    (reached : Reached member miniz At context rest out) (state : context.state = .expectingHeader) :
    rest = member.file miniz ∨ rest = [] := by
  cases reached with
  | start => exact Or.inl rfl
  | fields left => cases state
  | body other place right | footer other right => exact absurd (state.symm.trans other) (by decide)
  | done => exact Or.inr rfl

theorem Reached.finished {context : Context miniz} {out : Bytes} (reached : Reached member miniz At context [] out) :
    out = member.data ∧ member.HeaderRead miniz := by
  have rest := @length_rest member
  have within := @length_rest_le member miniz
  generalize noRest : ([] : Bytes) = nothing at reached
  have length := congrArg List.length noRest
  rw [length_nil] at length
  cases reached with
  | start state => omega
  | fields left =>
    simp only [Member.ahead, length_append] at length
    omega
  | body state place right =>
    rw [length_append, Member.length_footer] at length
    omega
  | footer state right =>
    rw [Member.length_footer] at length
    omega
  | done state right => exact ⟨rfl, right⟩

def Demands (member : Member) (fed : Nat) (read : Read) : Prop :=
  (fed = 0 → read.piece ≠ [] → headerSize ≤ read.piece.length) ∧
    (member.Bare → fed + read.piece.length ≠ member.header.length)

private theorem bare_iff {fed : Nat} {piece : Bytes} (bare : member.Bare)
    (total : fed + (piece ++ unfed).length = (member.file miniz).length) :
    fed + piece.length = member.header.length ↔ unfed.length = member.rest.length := by
  have file := @length_file member miniz
  have noCrc : (member.crcBytes miniz).length = 0 := by simp [Member.crcBytes, bare.headerCrc]
  rw [length_append] at total
  omega

section

variable (framed : member.Framed) (valid : member.Valid) (inflates : Inflates miniz At member.body member.data)
  (short : (member.file miniz).length < 2 ^ 32)
include framed valid inflates short

private theorem feed_live {read : Read} {fed : Nat} (roomy : Roomy read.room)
    (live : Live member miniz At run (read.piece ++ unfed))
    (total : fed + (read.piece ++ unfed).length = (member.file miniz).length) :
    (feed run read = none ∧ ¬ (member.HeaderRead miniz ∧ Demands member fed read)) ∨
      ∃ next, feed run read = some next ∧ Live member miniz At next unfed ∧ Demands member fed read ∧
        ((run.1.append read.piece).buffer ≠ [] → unfed = [] → member.left (next.1.buffer ++ unfed) next.2 <
          member.left (run.1.buffer ++ (read.piece ++ unfed)) run.2) := by
  obtain ⟨reached, start, covered⟩ := live
  have bytes : (run.1.append read.piece).buffer ++ unfed = run.1.buffer ++ (read.piece ++ unfed) := append_assoc ..
  by_cases nothing : (run.1.append read.piece).buffer = []
  · obtain ⟨noBuffer, noPiece⟩ := append_eq_nil_iff.mp nothing
    have stays : feed run read = some (run.1.append read.piece, run.2) := by
      rw [feed, if_pos nothing]
    rw [noPiece, nil_append] at covered
    refine Or.inr ⟨_, stays, ⟨?_, fun _ => nothing, covered⟩, ⟨?_, ?_⟩, fun some => absurd nothing some⟩
    · rw [bytes]
      exact reached.append read.piece
    · exact fun _ some => absurd noPiece some
    · intro bare
      rw [ne_eq, bare_iff bare total]
      exact covered bare
  · have outcome := @dispatch_reached member miniz At (run.1.append read.piece) unfed run.2
      read.room framed valid inflates short roomy _ (reached.append read.piece) bytes nothing
    have step : feed run read = if (dispatch (run.1.append read.piece) read.room).1 ≠ 0 then none
        else some ((dispatch (run.1.append read.piece) read.room).2.2,
          run.2 ++ (dispatch (run.1.append read.piece) read.room).2.1) := by
      rw [feed, if_neg nothing]
    rw [step]
    generalize dispatch (run.1.append read.piece) read.room = result at outcome
    cases outcome with
    | short state few =>
      refine Or.inl ⟨if_pos (show failure ≠ 0 by decide), ?_⟩
      rintro ⟨-, long, -⟩
      have noBuffer : run.1.buffer = [] := start state
      have own : (run.1.append read.piece).buffer = read.piece := by rw [Context.append, noBuffer, nil_append]
      rw [own] at few nothing
      rw [noBuffer, nil_append] at reached
      rcases reached.header state with whole | none_
      · rw [whole] at total
        have first := long (by omega) nothing
        omega
      · exact nothing (append_eq_nil_iff.mp none_).1
    | wrong wrong => exact Or.inl ⟨if_pos (show corruptedHeader ≠ 0 by decide), fun all => wrong all.1⟩
    | bare bare cut =>
      exact Or.inl ⟨if_pos (show failure ≠ 0 by decide), fun all => all.2.2 bare ((bare_iff bare total).mpr cut)⟩
    | goes reachedNext unread startNext less long covered =>
      refine Or.inr ⟨_, if_neg (fun bad => bad rfl), ⟨?_, startNext, covered⟩, ⟨?_, ?_⟩, fun _ noMore => ?_⟩
      · rw [unread]
        exact reachedNext
      · intro first _
        have whole : (member.file miniz).length ≤ (run.1.buffer ++ (read.piece ++ unfed)).length := by
          rw [length_append]
          omega
        have state := (reached.before whole).1
        have enough : headerSize ≤ (run.1.append read.piece).buffer.length := long state
        rwa [Context.append, start state, nil_append] at enough
      · intro bare
        rw [ne_eq, bare_iff bare total]
        exact covered bare
      · rw [unread]
        exact less noMore

private theorem reads_live {reads : List Read} {fed : Nat} (roomy : ∀ read ∈ reads, Roomy read.room)
    (live : Live member miniz At run (pieces reads ++ unfed))
    (total : fed + (pieces reads ++ unfed).length = (member.file miniz).length) :
    (reads.foldlM feed run = none ∧ ¬ (member.HeaderRead miniz ∧ Continues member fed reads)) ∨
      ∃ last, reads.foldlM feed run = some last ∧ Live member miniz At last unfed ∧ Continues member fed reads := by
  induction reads generalizing run fed with
  | nil => exact Or.inr ⟨run, rfl, live, trivial⟩
  | cons read reads ih =>
    obtain ⟨first, later⟩ := forall_mem_cons.mp roomy
    have split : pieces (read :: reads) ++ unfed = read.piece ++ (pieces reads ++ unfed) := by
      rw [pieces, flatMap_cons, append_assoc, ← pieces]
    rw [split] at live total
    rw [foldlM_cons]
    rcases feed_live framed valid inflates short first live total with ⟨fails, broken⟩ | ⟨next, goes, onward, demands, -⟩
    · rw [fails]
      refine Or.inl ⟨rfl, fun both => broken ⟨both.1, both.2.1, both.2.2.1⟩⟩
    · have rest : fed + read.piece.length + (pieces reads ++ unfed).length = (member.file miniz).length := by
        rw [← total]
        simp only [length_append]
        omega
      rw [goes]
      rcases ih later onward rest with ⟨fails, broken⟩ | ⟨last, all, lastLive, continues⟩
      · exact Or.inl ⟨fails, fun both => broken ⟨both.1, both.2.2.2⟩⟩
      · exact Or.inr ⟨last, all, lastLive, demands.1, demands.2, continues⟩

omit framed valid inflates short in
private theorem calls_empty {rooms : List Nat} (empty : run.1.buffer = []) :
    ∃ last, (calls rooms).foldlM feed run = some last ∧ last.2 = run.2 := by
  induction rooms generalizing run with
  | nil => exact ⟨run, rfl, rfl⟩
  | cons room rooms ih =>
    have nothing : (run.1.append []).buffer = [] := by rw [Context.append, empty, nil_append]
    have stays : feed run { piece := [], room } = some (run.1.append [], run.2) := by
      rw [feed, if_pos nothing]
    obtain ⟨last, all, same⟩ := @ih (run.1.append [], run.2) nothing
    refine ⟨last, ?_, same⟩
    rw [calls, map_cons, foldlM_cons, stays]
    exact all

private theorem calls_live {rooms : List Nat} (roomy : ∀ room ∈ rooms, Roomy room) (live : Live member miniz At run [])
    (enough : member.left run.1.buffer run.2 ≤ rooms.length) :
    ((calls rooms).foldlM feed run = none ∧ ¬ member.HeaderRead miniz) ∨
      ∃ last, (calls rooms).foldlM feed run = some last ∧ last.2 = member.data ∧ member.HeaderRead miniz := by
  induction rooms generalizing run with
  | nil =>
    have empty : run.1.buffer = [] := by
      rw [Member.left, length_nil] at enough
      exact length_eq_zero_iff.mp (by omega)
    have reached := live.reached
    rw [empty] at reached
    exact Or.inr ⟨run, rfl, reached.finished⟩
  | cons room rooms ih =>
    obtain ⟨first, later⟩ := forall_mem_cons.mp roomy
    by_cases empty : run.1.buffer = []
    · have reached := live.reached
      rw [empty] at reached
      obtain ⟨last, all, same⟩ := @calls_empty miniz run (room :: rooms) empty
      exact Or.inr ⟨last, all, same.trans reached.finished.1, reached.finished.2⟩
    · have file := @length_file member miniz
      have header := @length_header member
      have rest := @length_rest member
      have demands : Demands member (member.file miniz).length { piece := [], room } := by
        refine ⟨fun _ some => absurd rfl some, ?_⟩
        intro _
        simp only [length_nil]
        omega
      have nonempty : (run.1.append []).buffer ≠ [] := by
        rw [Context.append, append_nil]
        exact empty
      rw [calls, map_cons, foldlM_cons]
      rcases @feed_live member miniz At [] run framed valid inflates short { piece := [], room } (member.file miniz).length
        first live rfl with ⟨fails, broken⟩ | ⟨next, goes, onward, -, less⟩
      · rw [fails]
        exact Or.inl ⟨rfl, fun right => broken ⟨right, demands⟩⟩
      · have smaller := less nonempty rfl
        simp only [append_nil] at smaller
        rw [goes]
        apply ih later onward
        rw [length_cons] at enough
        omega

private theorem eventually_cases {reads : List Read} (cut : Cut member miniz reads) :
    (Eventually miniz reads (some member.data) ∧ Continues member 0 reads ∧ member.HeaderRead miniz) ∨
      (Eventually miniz reads none ∧ ¬ (Continues member 0 reads ∧ member.HeaderRead miniz)) := by
  have bytes : pieces reads ++ [] = member.file miniz := by rw [append_nil, cut.bytes]
  have live : Live member miniz At (Context.create miniz, []) (pieces reads ++ []) := by
    rw [bytes]
    exact created_live
  have total : 0 + (pieces reads ++ []).length = (member.file miniz).length := by rw [bytes, Nat.zero_add]
  have run (rooms : List Nat) : streamed miniz (reads ++ calls rooms) =
      ((reads.foldlM feed (Context.create miniz, [])).bind fun last => (calls rooms).foldlM feed last).map (·.2) := by
    rw [streamed, foldlM_append]
    rfl
  rcases reads_live framed valid inflates short cut.roomy live total with ⟨fails, broken⟩ | ⟨last, goes, lastLive, continues⟩
  · right
    refine ⟨⟨0, fun rooms _ _ => ?_⟩, fun both => broken ⟨both.2, both.1⟩⟩
    rw [run, fails]
    rfl
  · by_cases right : member.HeaderRead miniz
    · left
      refine ⟨⟨member.left last.1.buffer last.2, fun rooms enough roomy => ?_⟩, continues, right⟩
      rcases calls_live framed valid inflates short roomy lastLive enough with ⟨-, wrong⟩ | ⟨final, all, text, -⟩
      · exact absurd right wrong
      · rw [run, goes, bind_some, all, map_some, text]
    · refine Or.inr ⟨⟨member.left last.1.buffer last.2, fun rooms enough roomy => ?_⟩, fun both => right both.2⟩
      rcases calls_live framed valid inflates short roomy lastLive enough with ⟨fails, -⟩ | ⟨final, -, -, found⟩
      · rw [run, goes, bind_some, fails]
        rfl
      · exact absurd found right

end

/-- In pieces, a member without a comment, with a name of 1 to 65534 bytes if there is one and with an extra
field of at most 65533 bytes, is treated as at once exactly where two things hold or fail together: the pieces
go on and the header is found right, and the footer is right with a text that is not empty or over the limit. -/
theorem agrees_iff (member : Member) (miniz : Miniz) (At : miniz.State → Nat → Nat → Prop) (reads : List Read)
    (valid : member.Valid) (framed : member.Framed) (short : (member.file miniz).length < 2 ^ 32)
    (inflates : Inflates miniz At member.body member.data) (cut : Cut member miniz reads) :
    Agrees member miniz reads ↔ ((Continues member 0 reads ∧ member.HeaderRead miniz) ↔ member.Accepted miniz) := by
  have outcome := eventually_cases framed valid inflates short cut
  by_cases accepted : member.Accepted miniz
  · have whole := Member.uncompress_accepted inflates valid short accepted
    rw [Agrees, whole]
    simp only [accepted, iff_true, accepted.1, true_implies, not_true, false_implies, and_true]
    rcases outcome with ⟨gives, continues, right⟩ | ⟨fails, broken⟩
    · exact ⟨fun _ => ⟨continues, right⟩, fun _ => gives⟩
    · constructor
      · intro gives
        cases eventually_unique gives fails
      · exact fun both => absurd both broken
  · have whole := Member.uncompress_refused inflates valid short accepted
    rw [Agrees, whole]
    simp only [accepted, iff_false, true_and]
    have either : ((member.FooterRight miniz → Eventually miniz reads none) ∧
        (¬ member.FooterRight miniz → Eventually miniz reads none)) ↔ Eventually miniz reads none := by
      by_cases footer : member.FooterRight miniz <;> simp [footer]
    rw [either]
    rcases outcome with ⟨gives, continues, right⟩ | ⟨fails, broken⟩
    · constructor
      · intro fails
        cases eventually_unique gives fails
      · exact fun broken => absurd ⟨continues, right⟩ broken
    · exact ⟨fun _ => broken, fun _ => fails⟩

end

/-! ### A sample -/

def crcBit (crc : UInt32) : UInt32 := if crc &&& 1 = 1 then crc >>> 1 ^^^ 0xedb88320 else crc >>> 1

def crcByte (crc : UInt32) (byte : UInt8) : UInt32 := (List.range 8).foldl (fun crc _ => crcBit crc) (crc ^^^ byte.toUInt32)

def bitwiseCrc32 (text : Bytes) : UInt32 := text.foldl crcByte 0xffffffff ^^^ 0xffffffff

example : bitwiseCrc32 [0x61] = 0xe8b7be43 := by decide +kernel

/-- A block that stores the letter `a`. -/
def storedBody : Bytes := [1, 1, 0, 0xfe, 0xff, 0x61]

def storedMiniz : Miniz where
  State := Nat × Nat
  start := (0, 0)
  inflate := fun (read, written) input room flush =>
    let used := min input.length (6 - read)
    let output : Bytes := if read + used = 6 ∧ written = 0 ∧ 0 < room then [0x61] else []
    let status : MzStatus :=
      if read + used = 6 ∧ written + output.length = 1 then .streamEnd
      else
        match flush with
        | .finish => .bufError
        | .partialFlush => if input = [] then .bufError else .ok
    { status, used, output, next := (read + used, written + output.length) }
  crc32 := bitwiseCrc32

def StoredAt (state : Nat × Nat) (read written : Nat) : Prop :=
  state = (read, written) ∧ read ≤ 6 ∧ written ≤ 1

theorem stored_inflates : Inflates storedMiniz StoredAt storedBody [0x61] := by
  refine ⟨by decide, ?_, ?_, ⟨rfl, by decide, by decide⟩, ?_, ?_⟩
  · intro room enough
    have roomy : 0 < room := enough
    simp [storedMiniz, storedBody, roomy]
  · intro room few
    have none_ : room = 0 := by simpa using few
    subst none_
    decide
  · rintro state read written ⟨rfl, inside, few⟩ input behind room nonempty part roomy
    have positive := length_pos_iff.mpr nonempty
    by_cases all : read + min input.length (6 - read) = 6
    · by_cases fresh : written = 0
      · have whole : min input.length (6 - read) ≤ input.length := Nat.min_le_left ..
        subst fresh
        simp [storedMiniz, storedBody, all, roomy]
      · have one : written = 1 := by omega
        subst one
        simp [storedMiniz, storedBody, all]
    · have used : 0 < min input.length (6 - read) := by omega
      have short : read + min input.length (6 - read) ≤ 6 := by omega
      simp [storedMiniz, storedBody, StoredAt, all, nonempty, short, few]
      omega
  · intro room roomy
    simp [storedMiniz]

/-- `a` with a name and an extra field. -/
def storedMember : Member where
  text := false
  mtime := 0
  xfl := 0
  os := 0xff
  extra := some [7]
  name := some [0x61]
  comment := none
  headerCrc := false
  body := storedBody
  data := [0x61]
  crc := bitwiseCrc32 [0x61]
  size := 1

theorem stored_valid : storedMember.Valid := by
  refine ⟨?_, ?_, ?_⟩
  · rintro extra ⟨⟩
    decide
  · rintro name ⟨⟩
    decide
  · rintro comment ⟨⟩

theorem agrees_sample : Agrees storedMember storedMiniz
    [{ piece := (storedMember.file storedMiniz).take 12, room := 1 },
      { piece := (storedMember.file storedMiniz).drop 12, room := 5 }] := by
  apply (agrees_iff storedMember storedMiniz StoredAt _ stored_valid ?_ (by decide +kernel) stored_inflates ?_).mpr
  · refine ⟨fun _ => ⟨⟨rfl, rfl⟩, by decide⟩, fun _ => ⟨⟨?_, ?_, ?_, ?_, trivial⟩, ?_⟩⟩
    · exact fun _ _ => by decide
    · exact fun _ => by decide
    · exact fun nothing => absurd nothing (by decide)
    · exact fun _ => by decide
    · exact fun flag => absurd flag (by decide)
  · refine ⟨rfl, ?_, ?_⟩
    · rintro name ⟨⟩
      exact ⟨by decide, by decide⟩
    · rintro extra ⟨⟩
      decide
  · refine ⟨?_, ?_⟩
    · simp [pieces]
    · intro read member
      rcases mem_pair.mp member with rfl | rfl <;> exact ⟨by decide, by decide⟩

/-- With less than the fixed header in the first piece, the member is refused. -/
theorem short_piece_refused : Cut storedMember storedMiniz
        [{ piece := (storedMember.file storedMiniz).take 5, room := 1 },
          { piece := (storedMember.file storedMiniz).drop 5, room := 1 }] ∧
      ¬ Agrees storedMember storedMiniz [{ piece := (storedMember.file storedMiniz).take 5, room := 1 },
          { piece := (storedMember.file storedMiniz).drop 5, room := 1 }] := by
  constructor
  · refine ⟨by simp [pieces], ?_⟩
    intro read member
    rcases mem_pair.mp member with rfl | rfl <;> exact ⟨by decide, by decide⟩
  · rintro ⟨right, -⟩
    obtain ⟨count, all⟩ := right ⟨rfl, rfl⟩
    have roomy : ∀ room ∈ List.replicate count 1, Roomy room := by
      intro room member
      rw [eq_of_mem_replicate member]
      exact ⟨by decide, by decide⟩
    have given := all (List.replicate count 1) (by simp) roomy
    have whole : flbGzipUncompress storedMiniz (storedMember.file storedMiniz) = some [0x61] := by decide +kernel
    rw [whole] at given
    cases given

end FluentBit.Gzip
