import FluentBit.Event.Decoder
import FluentBit.Foundation.Runs
import Mathlib.Data.List.Nodup

/-! Snapshots of a stream, after `src/stream_processor/flb_sp_snapshot.c`: the last records
of the stream, in pages, until they are flushed. -/

set_option autoImplicit false

namespace FluentBit.StreamProcessor.Snapshots

open Event (Time Unpacked unpackNext)
open Msgpack (Object)

def pageSize : Nat := 1024

/-- `struct flb_sp_snapshot_page`. What has been written to it ends at `end_pos`. -/
structure Page where
  startPos : Nat := 0
  data : Bytes := []

def Page.endPos (page : Page) : Nat := page.data.length

structure Snapshot where
  timeLimit : Int
  recordLimit : Int
  records : Int := 0
  size : Nat := 0
  pages : List Page := []

def Snapshot.surplus (snapshot : Snapshot) (tms : Time) (record : Object) : Bool :=
  (0 < snapshot.recordLimit ∧ snapshot.recordLimit < snapshot.records) ∨
    (0 < snapshot.timeLimit ∧
      snapshot.timeLimit < tms.sec.toInt - ((Event.timePopFromMsgpack record).getD { sec := 0, nsec := 0 }).sec.toInt)

/-- The records that `snapshot_cleanup` takes off a page. -/
def trimPage (tms : Time) : Nat → Snapshot → Page → Snapshot × Page
  | 0, snapshot, page => (snapshot, page)
  | fuel + 1, snapshot, page =>
    match unpackNext page.data page.startPos with
    | (.success record, off) =>
      if snapshot.surplus tms record then
        trimPage tms fuel
          { snapshot with records := snapshot.records - 1, size := snapshot.size - (off - page.startPos) }
          { page with startPos := off }
      else (snapshot, page)
    | _ => (snapshot, page)

/-- `snapshot_cleanup`: a page that is empty is freed, and the next one is looked at. -/
def cleanup (tms : Time) : List Page → Snapshot → Snapshot
  | [], snapshot => { snapshot with pages := [] }
  | page :: rest, snapshot =>
    let (snapshot, page) := trimPage tms (page.data.length + 1) snapshot page
    if page.startPos ≠ page.endPos then { snapshot with pages := page :: rest } else cleanup tms rest snapshot

/-- `snapshot_page_is_full`. The room is a signed number that is compared as an unsigned one:
behind the end of a page there seems to be room for every record. -/
def Page.isFull (page : Page) (bufSize : Nat) : Bool :=
  page.endPos ≤ pageSize ∧ pageSize - page.endPos < bufSize

def place (record : Bytes) : List Page → List Page
  | [] => [{ data := record }]
  | [page] =>
    if page.isFull record.length then [page, { data := record }] else [{ page with data := page.data ++ record }]
  | page :: rest => page :: place record rest

/-- Where the copy of a record into the page that `place` takes for it ends. -/
def writeEnd (record : Bytes) (pages : List Page) : Nat :=
  match pages.getLast? with
  | none => record.length
  | some page => if page.isFull record.length then record.length else page.endPos + record.length

def Snapshot.update (snapshot : Snapshot) (record : Bytes) (tms : Time) : Snapshot :=
  if record.length ≤ 0 then snapshot
  else
    cleanup tms (place record snapshot.pages)
      { snapshot with records := snapshot.records + 1, size := snapshot.size + record.length }

def Page.valid (page : Page) : Bytes := page.data.drop page.startPos

structure Task where
  streamName : Bytes
  snapshot : Snapshot

def memcpy (target : Bytes) (off : Nat) (source : Bytes) : Bytes :=
  target.take off ++ source ++ target.drop (off + source.length)

/-- The loop of `flb_sp_snapshot_flush` over the tasks. `fresh` are the bytes of memory
that was not written yet, and `off` is where the next page goes. -/
def flushFrom (fresh : Nat → UInt8) (name : Bytes) : List Task → Nat → Option Bytes → List Task × Option Bytes
  | [], _, out => ([], out)
  | task :: rest, off, out =>
    if task.streamName = name then
      if task.snapshot.size = 0 then (task :: rest, out)
      else
        let grown := out.getD [] ++ (List.range task.snapshot.size).map fresh
        let valid := task.snapshot.pages.flatMap Page.valid
        let (rest, out) := flushFrom fresh name rest (off + valid.length) (some (memcpy grown off valid))
        ({ task with snapshot := { task.snapshot with pages := [], records := 0, size := 0 } } :: rest, out)
    else
      let (rest, out) := flushFrom fresh name rest off out
      (task :: rest, out)

/-- `flb_sp_snapshot_flush`, with the buffer that the caller has already, if any. -/
def flush (fresh : Nat → UInt8) (name : Bytes) (tasks : List Task) (out : Option Bytes) : List Task × Option Bytes :=
  flushFrom fresh name tasks 0 out

inductive Call where
  | update (task : Nat) (record : Bytes) (tms : Time)
  | flush (name : Bytes) (out : Option Bytes) (fresh : Nat → UInt8)

def step (call : Call) (tasks : List Task) : List Task :=
  match call with
  | .update task record tms =>
    tasks.modify task fun task => { task with snapshot := task.snapshot.update record tms }
  | .flush name out fresh => (flush fresh name tasks out).1

/-! What a snapshot holds over a run of updates and flushes. -/

open List Nat
open Event (Time Unpacked unpackNext embedStackSize)

def IsRecord (record : Bytes) : Prop := ∃ object, Msgpack.unpack embedStackSize record = .done object []

variable {record : Bytes}

theorem IsRecord.unpack (isRecord : IsRecord record) : 0 < record.length ∧
      ∃ object, ∀ more, Msgpack.unpack embedStackSize (record ++ more) = .done object more := by
  obtain ⟨object, unpacked⟩ := isRecord
  obtain ⟨used, split, nonempty, again⟩ := Msgpack.unpack_stable unpacked
  rw [append_nil] at split
  subst split
  exact ⟨nonempty, object, again⟩

structure PageHolds (page : Page) (part : List Bytes) : Prop where
  bound : page.endPos ≤ pageSize
  start : page.startPos ≤ page.endPos
  valid : page.valid = part.flatten

structure Holds (snapshot : Snapshot) (kept : List Bytes) : Prop where
  pages : ∃ parts : List (List Bytes), List.Forall₂ PageHolds snapshot.pages parts ∧ parts.flatten = kept ∧ [] ∉ parts
  records : snapshot.records = kept.length
  size : snapshot.size = kept.flatten.length

/-! ### Trimming -/

variable {page : Page}

theorem PageHolds.unpackNext_nil (holds : PageHolds page []) :
    unpackNext page.data page.startPos = (.more, page.startPos) := by
  have ended : page.data.length ≤ page.startPos := drop_eq_nil_iff.mp holds.valid
  simp [unpackNext, ended]

variable {part : List Bytes}

theorem PageHolds.unpackNext_cons (isRecord : IsRecord record) (holds : PageHolds page (record :: part)) :
    (∃ object, unpackNext page.data page.startPos = (.success object, page.startPos + record.length)) ∧
      PageHolds { page with startPos := page.startPos + record.length } part := by
  obtain ⟨nonempty, object, unpacks⟩ := isRecord.unpack
  have start : (page.data.take page.startPos).length = page.startPos := length_take_of_le holds.start
  have valid : page.data.drop page.startPos = record ++ part.flatten := holds.valid
  have split : page.data = page.data.take page.startPos ++ (record ++ part.flatten) := by
    rw [← valid, take_append_drop]
  have length := congrArg List.length split
  simp only [length_append, start] at length
  constructor
  · refine ⟨object, ?_⟩
    have next := Event.unpackNext_append (page.data.take page.startPos) (record ++ part.flatten) (by
        intro empty
        rw [(append_eq_nil_iff.mp empty).1] at nonempty
        exact absurd nonempty (by decide)) (unpacks part.flatten)
    rw [← split, start] at next
    rw [next, length]
    congr 1
    omega
  · constructor
    · exact holds.bound
    · simp only [Page.endPos]
      omega
    · change page.data.drop (page.startPos + record.length) = part.flatten
      rw [← drop_drop, valid, drop_left]

def Snapshot.excess (snapshot : Snapshot) : Nat := (snapshot.records - snapshot.recordLimit).toNat

structure Counts (snapshot : Snapshot) : Prop where
  limited : 0 < snapshot.recordLimit
  untimed : snapshot.timeLimit ≤ 0

variable {snapshot : Snapshot}

theorem Counts.surplus (counts : Counts snapshot) (tms : Time) (record : Object) :
    snapshot.surplus tms record = decide (0 < snapshot.excess) := by
  have limited := counts.limited
  have untimed := counts.untimed
  unfold Snapshot.surplus Snapshot.excess
  rw [decide_eq_decide]
  omega

def Snapshot.without (snapshot : Snapshot) (removed : List Bytes) : Snapshot :=
  { snapshot with records := snapshot.records - removed.length, size := snapshot.size - removed.flatten.length }

theorem Snapshot.without_nil : snapshot.without [] = snapshot := by
  simp [Snapshot.without]

theorem Snapshot.without_cons (removed : List Bytes) :
    (snapshot.without [record]).without removed = snapshot.without (record :: removed) := by
  simp only [Snapshot.without, flatten_cons, flatten_nil, append_nil, length_append,
    length_cons, length_nil, Nat.sub_sub]
  congr 1
  omega

theorem trimPage_holds (tms : Time) {fuel : Nat} (counts : Counts snapshot)
    (isRecord : ∀ record ∈ part, IsRecord record) (holds : PageHolds page part) (enough : part.length < fuel) :
    ∃ trimmed, trimPage tms fuel snapshot page = (snapshot.without (part.take snapshot.excess), trimmed) ∧
      PageHolds trimmed (part.drop snapshot.excess) := by
  induction part generalizing fuel snapshot page with
  | nil =>
    cases fuel with
    | zero => exact absurd enough (Nat.not_lt_zero _)
    | succ fuel =>
      refine ⟨page, ?_, by simpa using holds⟩
      simp [trimPage, holds.unpackNext_nil, Snapshot.without_nil]
  | cons record part ih =>
    cases fuel with
    | zero => exact absurd enough (Nat.not_lt_zero _)
    | succ fuel =>
      obtain ⟨⟨object, unpacked⟩, later⟩ := holds.unpackNext_cons (isRecord record mem_cons_self)
      simp only [trimPage, unpacked, counts.surplus, decide_eq_true_eq]
      split
      next tooMany =>
        have one : snapshot.without [record] = { snapshot with
              records := snapshot.records - 1
              size := snapshot.size - (page.startPos + record.length - page.startPos) } := by
          simp [Snapshot.without]
        have less : (snapshot.without [record]).excess = snapshot.excess - 1 := by
          simp only [Snapshot.excess, Snapshot.without, length_singleton]
          omega
        have stillCounts : Counts (snapshot.without [record]) := ⟨counts.limited, counts.untimed⟩
        obtain ⟨trimmed, result, holdsLater⟩ := ih stillCounts
          (fun record member => isRecord record (mem_cons_of_mem _ member)) later (lt_of_succ_lt_succ enough)
        rw [less] at result holdsLater
        obtain ⟨excess, same⟩ : ∃ excess, snapshot.excess = excess + 1 := ⟨snapshot.excess - 1, by omega⟩
        rw [same, Nat.add_sub_cancel] at result holdsLater
        rw [same, take_succ_cons, drop_succ_cons, ← Snapshot.without_cons, ← one]
        exact ⟨trimmed, result, holdsLater⟩
      next within =>
        have zero : snapshot.excess = 0 := by omega
        refine ⟨page, ?_, by simpa [zero] using holds⟩
        rw [zero, take_zero, Snapshot.without_nil]

theorem Snapshot.without_append (first later : List Bytes) :
    (snapshot.without first).without later = snapshot.without (first ++ later) := by
  simp only [Snapshot.without, flatten_append, length_append, Nat.sub_sub]
  congr 1
  omega

theorem length_le_flatten (isRecord : ∀ record ∈ part, IsRecord record) : part.length ≤ part.flatten.length := by
  induction part with
  | nil => exact Nat.le_refl _
  | cons record rest ih =>
    have first := (isRecord record mem_cons_self).unpack.1
    have later := ih fun other member => isRecord other (mem_cons_of_mem _ member)
    rw [flatten_cons, length_append, length_cons]
    omega

theorem flatten_ne_nil (isRecord : ∀ record ∈ part, IsRecord record) (nonempty : part ≠ []) : part.flatten ≠ [] := by
  have bytes := length_le_flatten isRecord
  have records := length_pos_iff.mpr nonempty
  exact length_pos_iff.mp (by omega)

theorem PageHolds.startPos_eq_iff (holds : PageHolds page part) (isRecord : ∀ record ∈ part, IsRecord record) :
    page.startPos = page.endPos ↔ part = [] := by
  have valid : page.data.drop page.startPos = part.flatten := holds.valid
  have start := holds.start
  constructor
  · intro ended
    by_contra nonempty
    apply flatten_ne_nil isRecord nonempty
    rw [← valid]
    exact drop_eq_nil_of_le (Nat.le_of_eq ended.symm)
  · rintro rfl
    have beyond := drop_eq_nil_iff.mp valid
    unfold Page.endPos at start ⊢
    omega

variable {parts : List (List Bytes)} {pages : List Page}

theorem cleanup_holds (tms : Time) (counts : Counts snapshot) (hold : List.Forall₂ PageHolds pages parts)
    (full : [] ∉ parts) (isRecord : ∀ record ∈ parts.flatten, IsRecord record) :
    ∃ left kept, cleanup tms pages snapshot =
        { snapshot.without (parts.flatten.take snapshot.excess) with pages := left } ∧
      List.Forall₂ PageHolds left kept ∧ kept.flatten = parts.flatten.drop snapshot.excess ∧ [] ∉ kept := by
  induction hold generalizing snapshot with
  | nil =>
    refine ⟨[], [], ?_, .nil, by simp, by simp⟩
    simp [cleanup, Snapshot.without_nil]
  | @cons page part pages parts first later ih =>
    rw [flatten_cons] at isRecord ⊢
    have inPart : ∀ record ∈ part, IsRecord record := fun record member => isRecord record (mem_append_left _ member)
    have enough : part.length < page.data.length + 1 := by
      have bytes := length_le_flatten inPart
      rw [← first.valid, Page.valid, length_drop] at bytes
      omega
    obtain ⟨trimmed, result, holds⟩ := trimPage_holds tms counts inPart first enough
    have left : ∀ record ∈ part.drop snapshot.excess, IsRecord record :=
      fun record member => inPart record (mem_of_mem_drop member)
    have ended := holds.startPos_eq_iff left
    simp only [cleanup, result]
    cases rest : part.drop snapshot.excess with
    | cons record remaining =>
      -- the page keeps a record, so the limit is met
      have bound : snapshot.excess < part.length := by
        by_contra tooMany
        rw [drop_eq_nil_of_le (by omega)] at rest
        cases rest
      rw [if_pos (by rw [ne_eq, ended, rest]; exact cons_ne_nil _ _)]
      refine ⟨trimmed :: pages, (record :: remaining) :: parts, ?_, .cons (rest ▸ holds) later, ?_, ?_⟩
      · rw [take_append_of_le_length (by omega)]
      · rw [flatten_cons, ← rest, drop_append_of_le_length (by omega)]
      · intro member
        cases member with
        | tail _ member => exact full (mem_cons_of_mem _ member)
    | nil =>
      have tooMany : part.length ≤ snapshot.excess := drop_eq_nil_iff.mp rest
      rw [if_neg (by rw [not_not, ended, rest])]
      rw [take_of_length_le tooMany]
      have less : (snapshot.without part).excess = snapshot.excess - part.length := by
        simp only [Snapshot.excess, Snapshot.without]
        omega
      have stillCounts : Counts (snapshot.without part) := ⟨counts.limited, counts.untimed⟩
      obtain ⟨left, kept, cleaned, holds, same, keptFull⟩ := ih stillCounts (fun member => full (mem_cons_of_mem _ member))
        (fun record member => isRecord record (mem_append_right _ member))
      rw [less] at cleaned same
      refine ⟨left, kept, ?_, holds, ?_, keptFull⟩
      · rw [cleaned, Snapshot.without_append, take_append, take_of_length_le tooMany]
      · rw [same, drop_append, rest, nil_append]

theorem place_holds (fits : record.length ≤ pageSize) (hold : List.Forall₂ PageHolds pages parts) (full : [] ∉ parts) :
    ∃ placed, List.Forall₂ PageHolds (place record pages) placed ∧ placed.flatten = parts.flatten ++ [record] ∧
      [] ∉ placed := by
  have fresh : PageHolds { data := record } [record] := by
    constructor
    · exact fits
    · exact Nat.zero_le _
    · simp [Page.valid]
  induction hold with
  | nil => exact ⟨[[record]], .cons fresh .nil, rfl, by simp⟩
  | @cons page part pages parts first later ih =>
    have partFull : part ≠ [] := by
      rintro rfl
      exact full mem_cons_self
    cases later with
    | nil =>
      unfold place
      split
      · exact ⟨[part, [record]], .cons first (.cons fresh .nil), by simp, by simpa using partFull.symm⟩
      next room =>
        have bound := first.bound
        have start := first.start
        simp only [Page.isFull, decide_eq_true_eq, bound, true_and, Nat.not_lt] at room
        refine ⟨[part ++ [record]], .cons ?_ .nil, by simp, by simp⟩
        constructor
        · simp only [Page.endPos, length_append] at bound room ⊢
          omega
        · simp only [Page.endPos, length_append] at start ⊢
          omega
        · have valid : page.data.drop page.startPos = part.flatten := first.valid
          simp only [Page.valid, flatten_append, flatten_cons, flatten_nil, append_nil]
          rw [drop_append_of_le_length start, valid]
    | cons second rest =>
      obtain ⟨placed, holds, same, placedFull⟩ := ih fun member => full (mem_cons_of_mem _ member)
      refine ⟨part :: placed, .cons first holds, ?_, ?_⟩
      · rw [flatten_cons, same, flatten_cons (l := part), append_assoc]
      · intro member
        cases member with
        | head => exact partFull rfl
        | tail _ member => exact placedFull member

variable {kept : List Bytes}

theorem Holds.update (counts : Counts snapshot) (holds : Holds snapshot kept)
    (isRecords : ∀ record ∈ kept, IsRecord record) (isRecord : IsRecord record) (fits : record.length ≤ pageSize)
    (tms : Time) :
    Holds (snapshot.update record tms) ((kept ++ [record]).drop (kept.length + 1 - snapshot.recordLimit.toNat)) := by
  obtain ⟨parts, hold, rfl, full⟩ := holds.pages
  obtain ⟨placed, placedHold, same, placedFull⟩ := place_holds fits hold full
  have nonempty : ¬ record.length ≤ 0 := Nat.not_le.mpr isRecord.unpack.1
  have stillCounts : Counts { snapshot with records := snapshot.records + 1, size := snapshot.size + record.length } :=
    ⟨counts.limited, counts.untimed⟩
  obtain ⟨left, remaining, cleaned, leftHold, flat, leftFull⟩ := cleanup_holds tms stillCounts placedHold placedFull (by
      intro other member
      rw [same, mem_append, mem_singleton] at member
      cases member with
      | inl earlier => exact isRecords other earlier
      | inr last => exact last ▸ isRecord)
  have excess : Snapshot.excess { snapshot with records := snapshot.records + 1, size := snapshot.size + record.length } =
      parts.flatten.length + 1 - snapshot.recordLimit.toNat := by
    have limited := counts.limited
    simp only [Snapshot.excess, holds.records]
    omega
  rw [excess] at cleaned flat
  rw [same] at cleaned flat
  unfold Snapshot.update
  rw [if_neg nonempty, cleaned]
  generalize removed : parts.flatten.length + 1 - snapshot.recordLimit.toNat = count at *
  have split := take_append_drop count (parts.flatten ++ [record])
  constructor
  · exact ⟨remaining, leftHold, flat, leftFull⟩
  · have lengths := congrArg List.length split
    simp only [length_append, length_singleton] at lengths
    simp only [Snapshot.without, holds.records]
    omega
  · have lengths := congrArg (fun records => records.flatten.length) split
    simp only [flatten_append, length_append, flatten_cons, flatten_nil, append_nil] at lengths
    simp only [Snapshot.without, holds.size]
    omega

/-! ### Flushes -/

def Task.emptied (task : Task) : Task :=
  if task.snapshot.size = 0 then task
  else { task with snapshot := { task.snapshot with pages := [], records := 0, size := 0 } }

variable {tasks : List Task}
variable {name : Bytes} {fresh : Nat → UInt8} {task : Task}

theorem flushFrom_absent (absent : name ∉ tasks.map Task.streamName) (off : Nat) (out : Option Bytes) :
    flushFrom fresh name tasks off out = (tasks, out) := by
  induction tasks with
  | nil => rfl
  | cons task rest ih =>
    rw [map_cons, mem_cons, not_or] at absent
    simp [flushFrom, Ne.symm absent.1, ih absent.2]

theorem map_emptied_absent (absent : name ∉ tasks.map Task.streamName) :
    (tasks.map fun task => if task.streamName = name then task.emptied else task) = tasks := by
  conv_rhs => rw [← map_id tasks]
  apply map_congr_left
  intro task member
  rw [if_neg]
  · rfl
  · rintro rfl
    exact absent (mem_map_of_mem member)

theorem flush_tasks (distinct : (tasks.map Task.streamName).Nodup) (off : Nat) (out : Option Bytes) :
    (flushFrom fresh name tasks off out).1 =
      tasks.map fun task => if task.streamName = name then task.emptied else task := by
  induction tasks generalizing off out with
  | nil => rfl
  | cons task rest ih =>
    rw [map_cons, nodup_cons] at distinct
    rw [map_cons]
    unfold flushFrom
    split
    next same =>
      subst same
      rw [map_emptied_absent distinct.1]
      split
      next empty => simp [Task.emptied, empty]
      next filled => simp [flushFrom_absent distinct.1, Task.emptied, filled]
    · simp [ih distinct.2]

theorem flush_out (distinct : (tasks.map Task.streamName).Nodup) (member : task ∈ tasks) (off : Nat)
    (out : Option Bytes) : (flushFrom fresh task.streamName tasks off out).2 = if task.snapshot.size = 0 then out else
        some (memcpy (out.getD [] ++ (List.range task.snapshot.size).map fresh) off
          (task.snapshot.pages.flatMap Page.valid)) := by
  induction tasks with
  | nil => cases member
  | cons first rest ih =>
    rw [map_cons, nodup_cons] at distinct
    cases member with
    | head =>
      simp only [flushFrom, if_true]
      split
      · rfl
      · simp [flushFrom_absent distinct.1]
    | tail _ later =>
      have other : first.streamName ≠ task.streamName := by
        intro same
        rw [same] at distinct
        exact distinct.1 (mem_map_of_mem later)
      simp only [flushFrom, other, if_false]
      exact ih distinct.2 later

theorem Holds.flatMap_valid (holds : Holds snapshot kept) : snapshot.pages.flatMap Page.valid = kept.flatten := by
  obtain ⟨parts, hold, rfl, -⟩ := holds.pages
  clear holds
  generalize snapshot.pages = pages at hold
  induction hold with
  | nil => rfl
  | cons first _ ih => rw [flatMap_cons, first.valid, ih, flatten_cons, flatten_append]

theorem Holds.emptied (holds : Holds task.snapshot kept) (isRecord : ∀ record ∈ kept, IsRecord record) :
    Holds task.emptied.snapshot [] := by
  unfold Task.emptied
  split
  next empty =>
    have none : kept = [] := by
      by_contra nonempty
      apply flatten_ne_nil isRecord nonempty
      rw [← length_eq_zero_iff, ← holds.size]
      exact empty
    rw [← none]
    exact holds
  · exact ⟨⟨[], .nil, rfl, by simp⟩, rfl, rfl⟩

theorem Holds.pages_eq_nil (holds : Holds snapshot []) : snapshot.pages = [] := by
  obtain ⟨parts, hold, flat, full⟩ := holds.pages
  generalize snapshot.pages = pages at hold ⊢
  cases hold with
  | nil => rfl
  | @cons page part pages parts =>
    rw [flatten_cons, append_eq_nil_iff] at flat
    rw [flat.1] at full
    exact absurd mem_cons_self full

/-! ### Runs -/

def lastOf (limit : Int) (records : List Bytes) : List Bytes := records.drop (records.length - limit.toNat)

def receive (task : Nat) (name : Bytes) (records : List Bytes) : Call → List Bytes
  | .update index record _ => if index = task then records ++ [record] else records
  | .flush flushed _ _ => if flushed = name then [] else records

def received (task : Nat) (name : Bytes) (calls : List Call) : List Bytes := calls.foldl (receive task name) []

def Admissible (tasks : List Task) : Call → Prop
  | .update _ record _ => IsRecord record ∧ record.length ≤ pageSize
  | .flush name out _ => out = none ∨ ∀ task ∈ tasks, task.streamName = name → task.snapshot.records = 0

structure Fresh (task : Task) : Prop where
  counts : Counts task.snapshot
  records : task.snapshot.records = 0
  size : task.snapshot.size = 0
  pages : task.snapshot.pages = []

theorem lastOf_nil (limit : Int) : lastOf limit [] = [] := drop_nil

theorem lastOf_append (limit : Int) (records : List Bytes) :
    (lastOf limit records ++ [record]).drop ((lastOf limit records).length + 1 - limit.toNat) =
      lastOf limit (records ++ [record]) := by
  unfold lastOf
  rw [length_drop, ← drop_append_of_le_length (sub_le _ _), drop_drop, length_append, length_singleton]
  congr 1
  omega

theorem cleanup_limits (tms : Time) (pages : List Page) (snapshot : Snapshot) :
    (cleanup tms pages snapshot).recordLimit = snapshot.recordLimit ∧
      (cleanup tms pages snapshot).timeLimit = snapshot.timeLimit := by
  have trimmed : ∀ (fuel : Nat) (snapshot : Snapshot) (page : Page),
      (trimPage tms fuel snapshot page).1.recordLimit = snapshot.recordLimit ∧
        (trimPage tms fuel snapshot page).1.timeLimit = snapshot.timeLimit := by
    intro fuel
    induction fuel with
    | zero => intro snapshot page; exact ⟨rfl, rfl⟩
    | succ fuel ih =>
      intro snapshot page
      unfold trimPage
      split
      · split
        · exact ih _ _
        · exact ⟨rfl, rfl⟩
      · exact ⟨rfl, rfl⟩
  induction pages generalizing snapshot with
  | nil => exact ⟨rfl, rfl⟩
  | cons page rest ih =>
    have first := trimmed (page.data.length + 1) snapshot page
    simp only [cleanup]
    split
    · exact first
    · exact ⟨(ih _).1.trans first.1, (ih _).2.trans first.2⟩

theorem Snapshot.update_limits (snapshot : Snapshot) (record : Bytes) (tms : Time) :
    (snapshot.update record tms).recordLimit = snapshot.recordLimit ∧
      (snapshot.update record tms).timeLimit = snapshot.timeLimit := by
  unfold Snapshot.update
  split
  · exact ⟨rfl, rfl⟩
  · exact cleanup_limits _ _ _

theorem Task.emptied_limits :
    task.emptied.streamName = task.streamName ∧ task.emptied.snapshot.recordLimit = task.snapshot.recordLimit ∧
      task.emptied.snapshot.timeLimit = task.snapshot.timeLimit := by
  unfold Task.emptied
  split
  · exact ⟨rfl, rfl, rfl⟩
  · exact ⟨rfl, rfl, rfl⟩

structure Tracks (tasks : List Task) (records : Nat → List Bytes) : Prop where
  distinct : (tasks.map Task.streamName).Nodup
  each : ∀ (index : Nat) (task : Task), tasks[index]? = some task →
    Counts task.snapshot ∧ (∀ record ∈ records index, IsRecord record) ∧
      Holds task.snapshot (lastOf task.snapshot.recordLimit (records index))

theorem step_names (distinct : (tasks.map Task.streamName).Nodup) (call : Call) :
    (step call tasks).map Task.streamName = tasks.map Task.streamName := by
  cases call with
  | update target record tms =>
    apply ext_getElem?
    intro index
    simp only [step, List.getElem?_map, List.getElem?_modify]
    cases tasks[index]? with
    | none => rfl
    | some task =>
      split
      all_goals rfl
  | flush name out fresh =>
    simp only [step, Snapshots.flush, flush_tasks distinct, map_map]
    apply map_congr_left
    intro task _
    simp only [Function.comp]
    split
    · exact task.emptied_limits.1
    · rfl

variable {records : Nat → List Bytes}

theorem Tracks.update (tracks : Tracks tasks records) {target : Nat} (tms : Time) (isRecord : IsRecord record)
    (fits : record.length ≤ pageSize) : Tracks (step (.update target record tms) tasks)
      fun index => if target = index then records index ++ [record] else records index := by
  constructor
  · rw [step_names tracks.distinct]
    exact tracks.distinct
  · intro index task found
    by_cases here : target = index
    · subst here
      simp only [step, List.getElem?_modify_eq, Option.map_eq_map, Option.map_eq_some_iff] at found
      obtain ⟨old, oldFound, rfl⟩ := found
      obtain ⟨counts, isRecords, holds⟩ := tracks.each target old oldFound
      obtain ⟨sameLimit, sameTime⟩ := old.snapshot.update_limits record tms
      simp only [if_true, sameLimit]
      refine ⟨⟨by rw [sameLimit]; exact counts.limited, by rw [sameTime]; exact counts.untimed⟩, ?_, ?_⟩
      · intro other member
        rw [mem_append, mem_singleton] at member
        cases member with
        | inl earlier => exact isRecords other earlier
        | inr last => exact last ▸ isRecord
      · rw [← lastOf_append]
        exact holds.update counts (fun other member => isRecords other (mem_of_mem_drop member)) isRecord fits tms
    · simp only [step, List.getElem?_modify_ne _ _ here] at found
      simp only [here, if_false]
      exact tracks.each index task found

theorem Tracks.flush (tracks : Tracks tasks records) (name : Bytes) (out : Option Bytes) (fresh : Nat → UInt8) :
    Tracks (step (.flush name out fresh) tasks) fun index =>
      if (tasks[index]?.map Task.streamName) = some name then [] else records index := by
  constructor
  · rw [step_names tracks.distinct]
    exact tracks.distinct
  · intro index task found
    simp only [step, Snapshots.flush, flush_tasks tracks.distinct, List.getElem?_map, Option.map_eq_some_iff] at found
    obtain ⟨old, oldFound, rfl⟩ := found
    obtain ⟨counts, isRecords, holds⟩ := tracks.each index old oldFound
    simp only [oldFound, Option.map_some, Option.some.injEq]
    split
    · obtain ⟨-, sameLimit, sameTime⟩ := old.emptied_limits
      refine ⟨⟨by rw [sameLimit]; exact counts.limited, by rw [sameTime]; exact counts.untimed⟩, by simp, ?_⟩
      rw [lastOf_nil]
      exact holds.emptied fun record member => isRecords record (mem_of_mem_drop member)
    · exact ⟨counts, isRecords, holds⟩

/-- After any calls the snapshots hold the last records received. -/
theorem Tracks.run (tracks : Tracks tasks records) (calls : List Call)
    (admitted : Runs.Admits step Admissible tasks calls) : ∃ later, Tracks (Runs.after step tasks calls) later ∧
      ∀ index name, (Runs.after step tasks calls)[index]?.map Task.streamName = some name →
        later index = calls.foldl (receive index name) (records index) := by
  induction calls generalizing tasks records with
  | nil => exact ⟨records, tracks, fun _ _ _ => rfl⟩
  | cons call rest ih =>
    obtain ⟨first, others⟩ := admitted
    have names : ∀ calls : List Call, ∀ tasks : List Task, (tasks.map Task.streamName).Nodup →
        (Runs.after step tasks calls).map Task.streamName = tasks.map Task.streamName := by
      intro calls
      induction calls with
      | nil => intro tasks _; rfl
      | cons call rest ih =>
        intro tasks distinct
        have same := step_names distinct call
        rw [← same]
        exact ih _ (same ▸ distinct)
    have sameNames := names (call :: rest) tasks tracks.distinct
    cases call with
    | update target record tms =>
      obtain ⟨later, laterTracks, received⟩ := ih (tracks.update tms first.1 first.2) others
      refine ⟨later, laterTracks, ?_⟩
      intro index name named
      rw [received index name named]
      rfl
    | flush flushed out fresh =>
      obtain ⟨later, laterTracks, received⟩ := ih (tracks.flush flushed out fresh) others
      refine ⟨later, laterTracks, ?_⟩
      intro index name named
      have before : tasks[index]?.map Task.streamName = some name := by
        rw [← List.getElem?_map, ← sameNames, List.getElem?_map]
        exact named
      rw [received index name named, before]
      simp [receive, eq_comm]

theorem Fresh.holds (fresh : Fresh task) : Holds task.snapshot [] where
  pages := ⟨[], by rw [fresh.pages]; exact .nil, rfl, by simp⟩
  records := fresh.records
  size := fresh.size

theorem memcpy_fresh (source : Bytes) :
    memcpy ((List.range source.length).map fresh) 0 source = source := by
  simp [memcpy]

/-- In a run whose flushes put their bytes in a buffer of their own, each snapshot holds the
last of the records received since it was flushed, and a flush gives out just these. -/
theorem holds_lastOf_received (start : List Task) (names : (start.map Task.streamName).Nodup)
    (initial : ∀ task ∈ start, Fresh task) (calls : List Call) (admitted : Runs.Admits step Admissible start calls)
    (index : Nat) (task : Task) (found : (Runs.after step start calls)[index]? = some task) :
    let kept := lastOf task.snapshot.recordLimit (received index task.streamName calls)
    Holds task.snapshot kept ∧ ∀ (out : Option Bytes) (fresh : Nat → UInt8),
        Admissible (Runs.after step start calls) (.flush task.streamName out fresh) →
          (flush fresh task.streamName (Runs.after step start calls) out).2 =
              (if kept = [] then out else some kept.flatten) ∧
            ∃ emptied, (flush fresh task.streamName (Runs.after step start calls) out).1[index]? = some emptied ∧
              emptied.snapshot.pages = [] ∧ emptied.snapshot.records = 0 ∧ emptied.snapshot.size = 0 := by
  intro kept
  have tracks : Tracks start fun _ => [] := by
    refine ⟨names, ?_⟩
    intro place first firstFound
    have fresh := initial first (mem_of_getElem? firstFound)
    refine ⟨fresh.counts, by simp, ?_⟩
    rw [lastOf_nil]
    exact fresh.holds
  obtain ⟨later, laterTracks, same⟩ := tracks.run calls admitted
  obtain ⟨counts, isRecords, holds⟩ := laterTracks.each index task found
  rw [same index task.streamName (by rw [found]; rfl)] at isRecords holds
  have isKept : ∀ record ∈ kept, IsRecord record := fun record member => isRecords record (mem_of_mem_drop member)
  have member := mem_of_getElem? found
  refine ⟨holds, ?_⟩
  intro out fresh admissible
  constructor
  · rw [flush, flush_out laterTracks.distinct member, holds.flatMap_valid]
    by_cases empty : kept = []
    · have none : task.snapshot.size = 0 := by
        rw [holds.size]
        change kept.flatten.length = 0
        rw [empty]
        rfl
      rw [if_pos none, if_pos empty]
    · have bytes := flatten_ne_nil isKept empty
      have size : task.snapshot.size ≠ 0 := by
        rw [holds.size]
        exact fun zero => bytes (length_eq_zero_iff.mp zero)
      rw [if_neg size, if_neg empty]
      cases admissible with
      | inl fresh =>
        rw [fresh, holds.size]
        exact congrArg some (memcpy_fresh _)
      | inr drained =>
        have records := drained task member rfl
        rw [holds.records] at records
        exact absurd (length_eq_zero_iff.mp (Int.natCast_eq_zero.mp records)) empty
  · have emptied := holds.emptied isKept
    refine ⟨task.emptied, ?_, emptied.pages_eq_nil, emptied.records, emptied.size⟩
    rw [flush, flush_tasks laterTracks.distinct, List.getElem?_map, found]
    simp

def sample : Task := { streamName := [115], snapshot := { timeLimit := 0, recordLimit := 2 } }

/-- The bytes of the record `[second, {}]`. -/
def sampleRecord (second : UInt8) : Bytes := [0x92, second, 0x80]

theorem holds_lastOf_received_sample : ∃ task, (Runs.after step [sample]
        [.update 0 (sampleRecord 1) ⟨0, 0⟩, .update 0 (sampleRecord 2) ⟨0, 0⟩, .update 0 (sampleRecord 3) ⟨0, 0⟩])[0]? =
          some task ∧ Holds task.snapshot (lastOf task.snapshot.recordLimit (received 0 task.streamName
        [.update 0 (sampleRecord 1) ⟨0, 0⟩, .update 0 (sampleRecord 2) ⟨0, 0⟩, .update 0 (sampleRecord 3) ⟨0, 0⟩])) :=
  ⟨_, rfl, (holds_lastOf_received [sample] (nodup_singleton _) (by
      intro task member
      rw [mem_singleton.mp member]
      exact ⟨⟨by decide, by decide⟩, rfl, rfl, rfl⟩)
    [.update 0 (sampleRecord 1) ⟨0, 0⟩, .update 0 (sampleRecord 2) ⟨0, 0⟩, .update 0 (sampleRecord 3) ⟨0, 0⟩]
    ⟨⟨⟨_, rfl⟩, by decide⟩, ⟨⟨_, rfl⟩, by decide⟩, ⟨⟨_, rfl⟩, by decide⟩, trivial⟩ 0 _ rfl).1⟩

/-- A second flush into one buffer writes over the bytes of the first one, and leaves as
many at the end that nothing was written to. -/
theorem flush_overwrites_buffer : (flush (fun _ => 0) sample.streamName
      (Runs.after step [sample] [.update 0 (sampleRecord 1) ⟨0, 0⟩, .flush sample.streamName none fun _ => 0,
        .update 0 (sampleRecord 2) ⟨0, 0⟩]) (some (sampleRecord 1))).2 = some (sampleRecord 2 ++ [0, 0, 0]) ∧
    sampleRecord 2 ++ [0, 0, 0] ≠ sampleRecord 1 ++ sampleRecord 2 ∧ sampleRecord 2 ++ [0, 0, 0] ≠ sampleRecord 2 := by
  refine ⟨?_, by decide, by decide⟩
  decide +kernel

end FluentBit.StreamProcessor.Snapshots
