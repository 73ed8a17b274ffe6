import FluentBit.Multiline.Shadow

/-! Streams do not see each other, and neither do the groups of a stream: a run beside the
run of the appends of one stream, or of one group, when every stream has a parser of its
own. With parsers in common they do see each other. -/

set_option autoImplicit false

namespace FluentBit.Multiline

open Ml Function

/-! ### Two runs -/

def parcelsOf (ml : Ml) (stream : StreamId) : List Parcel :=
  (ml.flushed.filter fun flushed => decide (flushed.stream = stream)).map Flushed.parcel

/-- What two runs of a stream have in common: a relation of the numbers of appends and one
of the groups, and the part of the records that is the same. -/
structure Likeness (config : Config) (ins : Ins) where
  counts : Nat → Nat → Prop
  agree : List StreamGroup → List StreamGroup → Prop
  view : List Parcel → List Parcel
  start : counts 0 0
  create : agree [.create []] [.create []]
  append : ∀ first second, view (first ++ second) = view first ++ view second
  flush : ∀ now left right, agree left right →
    agree (flushGroups config ins now left).1 (flushGroups config ins now right).1 ∧
      view (flushGroups config ins now left).2 = view (flushGroups config ins now right).2

section

variable {config : Config} {parsers : List Ins} {home : StreamId → Ins} {now : Nat} {ml left right : Ml}
  {stream target : StreamId} {input : Input}

@[simp] theorem parcelsOf_deliver_self (ins : Ins) (groups : List StreamGroup) (parcels : List Parcel) :
    parcelsOf (ml.deliver ins stream groups parcels) stream = parcelsOf ml stream ++ parcels := by
  simp [parcelsOf, List.filter_map, comp_def]

theorem parcelsOf_deliver_of_ne {ins : Ins} {groups : List StreamGroup} {parcels : List Parcel}
    (apart : target ≠ stream) : parcelsOf (ml.deliver ins target groups parcels) stream = parcelsOf ml stream := by
  simp [parcelsOf, List.filter_map, comp_def, apart]

/-- What an append makes of the groups of its stream, and the parcels it flushes -/
def Ml.advanced (config : Config) (home : StreamId → Ins) (ml : Ml) (stream : StreamId) (input : Input) (now : Nat) :=
  advance config (home stream) now (ml.appended stream).length input (ml.groupsOf (home stream) stream)

theorem Ready.append_advanced (ready : Ready parsers home ml) (one : config.groups = [parsers])
    (among : home stream ∈ parsers) (decided : Decided config parsers home ml stream input now) :
    Ready parsers home (ml.append config stream input now) ∧ (ml.append config stream input now).created = ml.created ∧
      ((ml.append config stream input now).appended stream).length = (ml.appended stream).length + 1 ∧
      (ml.append config stream input now).groupsOf (home stream) stream = (ml.advanced config home stream input now).1 ∧
      parcelsOf (ml.append config stream input now) stream =
        parcelsOf ml stream ++ (ml.advanced config home stream input now).2 := by
  have appended := ready.append one among decided
  obtain ⟨lru, lastStreamId, after, _⟩ := append_home ready one among decided
  rw [after] at appended ⊢
  exact ⟨appended, rfl, by simp, by simp [Ml.advanced],
    @parcelsOf_deliver_self ml stream (home stream) (ml.advanced config home stream input now).1 _⟩

structure Beside (parsers : List Ins) (home : StreamId → Ins) (stream : StreamId)
    (likeness : Likeness config (home stream)) (left right : Ml) : Prop where
  readyLeft : Ready parsers home left
  readyRight : Ready parsers home right
  created : left.created = right.created
  counts : likeness.counts (left.appended stream).length (right.appended stream).length
  groups : stream ∈ left.created → likeness.agree (left.groupsOf (home stream) stream)
    (right.groupsOf (home stream) stream)
  parcels : likeness.view (parcelsOf left stream) = likeness.view (parcelsOf right stream)

variable {likeness : Likeness config (home stream)}

theorem beside_initial : Beside parsers home stream likeness .initial .initial :=
  ⟨ready_initial, ready_initial, rfl, likeness.start, by simp [Ml.initial], rfl⟩

theorem Beside.streamCreate (beside : Beside parsers home stream likeness left right) (positive : target ≠ 0) :
    Beside parsers home stream likeness (left.streamCreate target) (right.streamCreate target) := by
  have readyLeft := beside.readyLeft.streamCreate positive
  have readyRight := beside.readyRight.streamCreate positive
  unfold Ml.streamCreate at readyLeft readyRight ⊢
  rw [← beside.created] at readyRight ⊢
  by_cases known : target ∈ left.created
  · simp only [if_pos known] at readyLeft readyRight ⊢
    exact beside
  · simp only [if_neg known] at readyLeft readyRight ⊢
    refine ⟨readyLeft, readyRight, rfl, beside.counts, ?_, beside.parcels⟩
    intro created
    by_cases same : stream = target
    · subst same
      simpa using likeness.create
    · have before : stream ∈ left.created := by simpa [same] using created
      simpa [same] using beside.groups before

theorem Beside.flushStream (beside : Beside parsers home stream likeness left right) (ins : Ins)
    (among : ins ∈ parsers) (created : target ∈ left.created) :
    Beside parsers home stream likeness (left.flushStream config now ins target)
      (right.flushStream config now ins target) := by
  have readyLeft := @Ready.flushStream config parsers home now left beside.readyLeft ins target
  have readyRight := @Ready.flushStream config parsers home now right beside.readyRight ins target
  rw [flushStream_eq] at readyLeft readyRight ⊢
  rw [flushStream_eq]
  by_cases same : target = stream
  · subst same
    by_cases mine : ins = home target
    · subst mine
      obtain ⟨agree, view⟩ := likeness.flush now _ _ (beside.groups created)
      refine ⟨readyLeft, readyRight, beside.created, beside.counts, ?_, ?_⟩
      · intro _
        simpa using agree
      · simp [likeness.append, beside.parcels, view]
    · -- The other parsers hold nothing of the stream.
      have leftUnused := beside.readyLeft.unused target created ins among mine
      have rightUnused := beside.readyRight.unused target (beside.created ▸ created) ins among mine
      simp only [leftUnused, rightUnused, flushGroups_create] at readyLeft readyRight ⊢
      refine ⟨readyLeft, readyRight, beside.created, beside.counts, ?_, ?_⟩
      · intro _
        rw [groupsOf_deliver_of_ne (.inl (Ne.symm mine)), groupsOf_deliver_of_ne (.inl (Ne.symm mine))]
        exact beside.groups created
      · simpa using beside.parcels
  · refine ⟨readyLeft, readyRight, beside.created, beside.counts, ?_, ?_⟩
    · intro known
      rw [groupsOf_deliver_of_ne (.inr (Ne.symm same)), groupsOf_deliver_of_ne (.inr (Ne.symm same))]
      exact beside.groups known
    · rw [parcelsOf_deliver_of_ne same, parcelsOf_deliver_of_ne same]
      exact beside.parcels

section

variable (beside : Beside parsers home stream likeness left right) (one : config.groups = [parsers])
include beside one

theorem Beside.flushPending :
    Beside parsers home stream likeness (left.flushPending config now) (right.flushPending config now) := by
  apply flushPending_related beside
  · intro left right related
    exact related.created
  · intro left right ins among target created related
    exact related.flushStream ins (by simpa [one] using among) created

theorem Beside.append_elsewhere (among : home target ∈ parsers)
    (decided : Decided config parsers home left target input now) (apart : target ≠ stream) :
    Beside parsers home stream likeness (left.append config target input now) right := by
  have ready := beside.readyLeft.append one among decided
  obtain ⟨lru, lastStreamId, after, _⟩ := append_home beside.readyLeft one among decided
  rw [after] at ready ⊢
  refine ⟨ready, beside.readyRight, beside.created, ?_, ?_, ?_⟩
  · simpa [update_of_ne (Ne.symm apart)] using beside.counts
  · intro created
    simpa [groupsOf_deliver_of_ne (.inr (Ne.symm apart))] using beside.groups created
  · exact (congrArg likeness.view (@parcelsOf_deliver_of_ne left stream target (home target)
      (left.advanced config home target input now).1 _ apart)).trans beside.parcels

theorem Beside.append_left (among : home stream ∈ parsers) (decided : Decided config parsers home left stream input now)
    (counts : likeness.counts ((left.appended stream).length + 1) (right.appended stream).length)
    (groups : likeness.agree (left.advanced config home stream input now).1 (right.groupsOf (home stream) stream))
    (silent : likeness.view (left.advanced config home stream input now).2 = []) :
    Beside parsers home stream likeness (left.append config stream input now) right := by
  obtain ⟨ready, created, length, after, parcels⟩ := beside.readyLeft.append_advanced one among decided
  refine ⟨ready, beside.readyRight, created ▸ beside.created, length ▸ counts, fun _ => after ▸ groups, ?_⟩
  rw [parcels, likeness.append, silent, List.append_nil]
  exact beside.parcels

theorem Beside.append_both (among : home stream ∈ parsers) (decided : Decided config parsers home left stream input now)
    (resolved : Decided config parsers home right stream input now)
    (counts : likeness.counts ((left.appended stream).length + 1) ((right.appended stream).length + 1))
    (groups : likeness.agree (left.advanced config home stream input now).1
      (right.advanced config home stream input now).1)
    (view : likeness.view (left.advanced config home stream input now).2 =
      likeness.view (right.advanced config home stream input now).2) :
    Beside parsers home stream likeness (left.append config stream input now)
      (right.append config stream input now) := by
  obtain ⟨readyLeft, created, length, after, parcels⟩ := beside.readyLeft.append_advanced one among decided
  obtain ⟨readyRight, made, size, later, sent⟩ := beside.readyRight.append_advanced one among resolved
  refine ⟨readyLeft, readyRight, ?_, ?_, fun _ => ?_, ?_⟩
  · rw [created, made, beside.created]
  · rwa [length, size]
  · rwa [after, later]
  · rw [parcels, sent, likeness.append, likeness.append, beside.parcels, view]

end

theorem Decided.transfer (decided : Decided config parsers home left stream input now)
    (readyLeft : Ready parsers home left) (readyRight : Ready parsers home right)
    (created : left.created = right.created) (room : Room config right stream input now (home stream))
    (taken : takes config (home stream) input now (left.groupsOf (home stream) stream) =
      takes config (home stream) input now (right.groupsOf (home stream) stream)) :
    Decided config parsers home right stream input now := by
  have known : stream ∈ right.created := created ▸ decided.created
  refine ⟨known, room, decided.foreign, ?_⟩
  rw [accepts_eq_takes readyRight.alive known, ← taken, ← accepts_eq_takes readyLeft.alive decided.created]
  exact decided.first

end

/-! ### One stream, one group -/

def sameStream (config : Config) (ins : Ins) : Likeness config ins :=
  { counts := Eq, agree := Eq, view := id, start := rfl, create := rfl, append := fun _ _ => rfl
    flush := fun _ _ _ same => same ▸ ⟨rfl, rfl⟩ }

theorem alike_create (name : Bytes) : Alike name [.create []] [.create []] := ⟨rfl, rfl, Nat.le_refl _, rfl⟩

def sameGroup (config : Config) (ins : Ins) (name : Bytes) : Likeness config ins :=
  { counts := fun _ _ => True, agree := Alike name, view := parcelsFor name
    start := trivial, create := alike_create name, append := parcelsFor_append
    flush := fun _ _ _ alike => alike.flush }

def Separate (config : Config) (parsers : List Ins) (home : StreamId → Ins) (ml : Ml) : Event → Prop
  | .streamCreate stream => stream ≠ 0
  | .append stream input now => Decided config parsers home ml stream input now
  | .flushPending _ => True

def SeparateGroups (config : Config) (parsers : List Ins) (home : StreamId → Ins) (stream : StreamId) (name : Bytes)
    (ml : Ml) : Event → Prop
  | .streamCreate target => target ≠ 0
  | .append target input now =>
    Decided config parsers home ml target input now ∧
      (target = stream → sdsEq (groupOf config (home stream) input now) name = false →
        accepts config ml stream input now (home stream) = true)
  | .flushPending _ => True

def Event.ofStream (stream : StreamId) : Event → Bool
  | .append target _ _ => decide (target = stream)
  | _ => true

def Event.ofGroup (config : Config) (ins : Ins) (stream : StreamId) (name : Bytes) : Event → Bool
  | .append target input now => decide (target = stream) && sdsEq (groupOf config ins input now) name
  | _ => true

def recordsOf (ml : Ml) (stream : StreamId) : List Record := (parcelsOf ml stream).map Parcel.record

def groupRecordsOf (ml : Ml) (stream : StreamId) (name : Bytes) : List Record :=
  ((parcelsOf ml stream).filter fun parcel => sdsEq parcel.group name).map Parcel.record

section

variable {config : Config} {parsers : List Ins} {home : StreamId → Ins}

theorem groupRecordsOf_eq (ml : Ml) (stream : StreamId) (name : Bytes) :
    groupRecordsOf ml stream name = (parcelsFor name (parcelsOf ml stream)).map Parcel.record := by
  unfold groupRecordsOf parcelsFor
  rw [List.map_map]
  rfl

section

variable (one : config.groups = [parsers]) (among : ∀ stream, home stream ∈ parsers) (stream : StreamId)
include one among stream

theorem beside_stream (events : List Event)
    (admitted : Runs.Admits (step config) (Separate config parsers home) .initial events) :
    Beside parsers home stream (sameStream config (home stream)) (Runs.after (step config) .initial events)
      (Runs.after (step config) .initial (events.filter (Event.ofStream stream))) := by
  apply Runs.related_filter (Beside parsers home stream (sameStream config (home stream))) _ _ events beside_initial
    admitted
  · intro left right event beside separate kept
    unfold Multiline.step
    rw [if_neg (by simp [beside.readyLeft.alive]), if_neg (by simp [beside.readyRight.alive])]
    cases event with
    | streamCreate target => exact beside.streamCreate separate
    | flushPending now => exact beside.flushPending one
    | append target input now =>
      obtain rfl : target = stream := by simpa [Event.ofStream] using kept
      have decided : Decided config parsers home left target input now := separate
      have groups : left.groupsOf (home target) target = right.groupsOf (home target) target :=
        beside.groups decided.created
      have counts : (left.appended target).length = (right.appended target).length := beside.counts
      have resolved := decided.transfer beside.readyLeft beside.readyRight beside.created
        (by unfold Room; rw [← groups]; exact decided.room) (by rw [groups])
      have alike : left.advanced config home target input now = right.advanced config home target input now := by
        rw [Ml.advanced, Ml.advanced, groups, counts]
      apply beside.append_both one (among target) decided resolved
      · exact congrArg (· + 1) counts
      · exact congrArg Prod.fst alike
      · rw [alike]
  · intro left right event beside separate kept
    unfold Multiline.step
    rw [if_neg (by simp [beside.readyLeft.alive])]
    cases event with
    | streamCreate target => cases kept
    | flushPending now => cases kept
    | append target input now =>
      exact beside.append_elsewhere one (among target) separate (by simpa [Event.ofStream] using kept)

theorem beside_group (name : Bytes) (events : List Event)
    (admitted : Runs.Admits (step config) (SeparateGroups config parsers home stream name) .initial events) :
    Beside parsers home stream (sameGroup config (home stream) name) (Runs.after (step config) .initial events)
      (Runs.after (step config) .initial (events.filter (Event.ofGroup config (home stream) stream name))) := by
  apply Runs.related_filter (Beside parsers home stream (sameGroup config (home stream) name)) _ _ events
    beside_initial admitted
  · intro left right event beside separate kept
    unfold Multiline.step
    rw [if_neg (by simp [beside.readyLeft.alive]), if_neg (by simp [beside.readyRight.alive])]
    cases event with
    | streamCreate target => exact beside.streamCreate separate
    | flushPending now => exact beside.flushPending one
    | append target input now =>
      obtain ⟨rfl, mine⟩ : target = stream ∧ sdsEq (groupOf config (home stream) input now) name = true := by
        simpa [Event.ofGroup] using kept
      obtain ⟨decided, _⟩ := separate
      have alike : Alike name (left.groupsOf (home target) target) (right.groupsOf (home target) target) :=
        beside.groups decided.created
      obtain ⟨groups, parcels, taken⟩ := @Alike.advance config (home target) now (left.appended target).length
        (right.appended target).length input name _ _ alike mine decided.room
      have resolved := decided.transfer beside.readyLeft beside.readyRight beside.created
        (fun line made => alike.room (by simpa [groupOf, made] using mine) (decided.room line made)) taken
      exact beside.append_both one (among target) decided resolved trivial groups parcels
  · intro left right event beside separate kept
    unfold Multiline.step
    rw [if_neg (by simp [beside.readyLeft.alive])]
    cases event with
    | streamCreate target => cases kept
    | flushPending now => cases kept
    | append target input now =>
      obtain ⟨decided, others⟩ := separate
      by_cases same : target = stream
      · subst same
        have apart : sdsEq (groupOf config (home target) input now) name = false := by
          simpa [Event.ofGroup] using kept
        have willing := others rfl apart
        rw [accepts_eq_takes beside.readyLeft.alive decided.created] at willing
        obtain ⟨groups, silent⟩ := @Alike.advance_apart config (home target) now (left.appended target).length
          input name _ _ (beside.groups decided.created) apart willing decided.room
        exact beside.append_left one (among target) decided trivial groups silent
      · exact beside.append_elsewhere one (among target) decided same

end

end

/-! ### One parser -/

theorem decided_of_single {config : Config} {ins : Ins} {ml : Ml} {stream : StreamId} {input : Input} {now : Nat}
    (created : stream ∈ ml.created) (few : (ml.groupsOf ins stream).length < maxGroups) :
    Decided config [ins] (fun _ => ins) ml stream input now := by
  refine ⟨created, ?_, ?_, .inl rfl⟩
  · intro line _
    unfold streamGroupGet
    split
    · split
      · rfl
      · rw [if_neg (Nat.not_le.mpr few)]
        rfl
    · rfl
  · intro other member apart
    exact absurd (List.mem_singleton.mp member) apart

def byOrigin : Parser := { untilStop with keyContent := some logKey, keyGroup := some [111], grouped := true }

def oneByOrigin : Config :=
  { groups := [[0]], parser := fun _ => byOrigin, hash := fun _ => 0, distinct := nodup_single }

def lineFrom (origin text : Bytes) : Input := .object 1 [] [(.str logKey, .str text), (.str [111], .str origin)]

def mixedLines : List Event :=
  [.streamCreate 7, .streamCreate 8, .append 7 (lineFrom [120] [97]) 1, .append 8 (lineFrom [120] [98]) 2,
    .append 7 (lineFrom [121] [99]) 3, .append 7 (lineFrom [120] [46]) 4, .flushPending 5]

def takingTurns : List Event :=
  [.streamCreate 7, .streamCreate 8, .append 7 (.text 1 [97]) 1, .append 8 (.text 2 [120]) 2,
    .append 7 (.text 3 [98]) 3, .flushPending 4]

end FluentBit.Multiline
