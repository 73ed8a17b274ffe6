import FluentBit.Foundation.Boundaries
import FluentBit.Gzip.Cuts
import Mathlib.Data.List.Sort

/-! The members of a file that has several, by `flb_gzip_count` of `src/flb_gzip.c`: it looks for what the
header of a member begins with. -/

set_option autoImplicit false

namespace FluentBit.Gzip

open List Option
open Boundaries

def vaildOsFlag (data : UInt8) : Bool :=
  [0x00, 0x01, 0x02, 0x03, 0x04, 0x05, 0x06, 0x07, 0x08, 0x09, 0x0a, 0x0b, 0x0c, 0x0d, 0xff].contains data

def headerAt (p : Bytes) (i : Nat) : Bool :=
  p.getD i 0 == 0x1f && p.getD (i + 1) 0 == 0x8b && p.getD (i + 2) 0 == 8 && vaildOsFlag (p.getD (i + 9) 0)

structure Counted where
  count : Nat
  stores : List (Nat × Nat)

/-- The loop from a place on. An `int` that passes its maximum is negative, and as a `size_t` not below the
length any more. -/
def countFrom (p : Bytes) (outBorders : Bool) : Nat → Nat → Nat → Counted
  | 0, _, count => { count, stores := [] }
  | fuel + 1, i, count =>
    if i < 2 ^ 31 ∧ i < p.length ∧ i + 9 ≤ p.length then
      if p.length - i < 18 then { count, stores := [] }
      else if headerAt p i then
        let later := countFrom p outBorders fuel (i + 1) (count + 1)
        { later with stores := (if outBorders then [(count, i)] else []) ++ later.stores }
      else countFrom p outBorders fuel (i + 1) count
    else { count, stores := [] }

/-- `flb_gzip_count`, with an array for the borders or without one. -/
def gzipCount (data : Bytes) (outBorders : Bool) (borderCount : Nat) : Counted :=
  let counted := countFrom data outBorders data.length 2 0
  { counted with
    stores := counted.stores ++
      -- the last border is the length of the whole
      if outBorders = true ∧ counted.count ≤ borderCount then [(borderCount, data.length)] else [] }

def stored (stores : List (Nat × Nat)) (slot : Nat) : Option Nat :=
  (stores.reverse.find? fun store => store.1 = slot).map (·.2)

/-! ### The loop -/

def looked (length : Nat) : Nat := min (2 ^ 31) (length - 17)

def foundFrom (p : Bytes) (i : Nat) : List Nat := (List.range' i (looked p.length - i)).filter (headerAt p)

private theorem looks_iff (p : Bytes) (i : Nat) :
    i < looked p.length ↔ (i < 2 ^ 31 ∧ i < p.length ∧ i + 9 ≤ p.length) ∧ ¬ p.length - i < 18 := by
  rw [looked]
  omega

variable {p : Bytes} {i borderCount : Nat}

private theorem foundFrom_end (ended : ¬ i < looked p.length) : foundFrom p i = [] := by
  rw [foundFrom, Nat.sub_eq_zero_of_le (Nat.le_of_not_lt ended)]
  rfl

private theorem foundFrom_step (looks : i < looked p.length) :
    foundFrom p i = if headerAt p i then i :: foundFrom p (i + 1) else foundFrom p (i + 1) := by
  obtain ⟨more, remains⟩ : ∃ more, looked p.length - i = more + 1 := ⟨looked p.length - i - 1, by omega⟩
  have less : looked p.length - (i + 1) = more := by omega
  rw [foundFrom, foundFrom, remains, less, List.range'_succ, filter_cons]

private theorem countFrom_eq (outBorders : Bool) {fuel : Nat} (count : Nat) (enough : p.length ≤ fuel + i) :
    countFrom p outBorders fuel i count =
      { count := count + (foundFrom p i).length
        stores := if outBorders then (List.range' count (foundFrom p i).length).zip (foundFrom p i) else [] } := by
  induction fuel generalizing i count with
  | zero =>
    have ended : ¬ i < looked p.length := by
      rw [looked]
      omega
    rw [foundFrom_end ended, countFrom]
    simp
  | succ fuel ih =>
    have goes := looks_iff p i
    rw [countFrom]
    by_cases looks : i < looked p.length
    · have inside := goes.mp looks
      rw [if_pos inside.1, if_neg inside.2, foundFrom_step looks]
      by_cases header : headerAt p i = true
      · rw [if_pos header, if_pos header, ih (count + 1) (by omega), length_cons, List.range'_succ]
        cases outBorders with
        | true | false => simp [Nat.add_assoc, Nat.add_comm 1]
      · rw [if_neg header, if_neg header, ih count (by omega)]
    · rw [foundFrom_end looks]
      split
      next inside =>
        split
        · simp
        next long => exact absurd (goes.mpr ⟨inside, long⟩) looks
      · simp

def found (data : Bytes) : List Nat := foundFrom data 2

variable {data : Bytes}

private theorem mem_found_iff :
    i ∈ found data ↔ (2 ≤ i ∧ i < 2 ^ 31 ∧ i + 18 ≤ data.length) ∧ headerAt data i = true := by
  rw [found, foundFrom, mem_filter, mem_range', looked]
  apply and_congr_left
  intro _
  constructor
  · rintro ⟨place, inside, rfl⟩
    omega
  · intro inside
    exact ⟨i - 2, by omega, by omega⟩

private theorem pairwise_found : (found data).Pairwise (· < ·) := by
  rw [found, foundFrom]
  exact (pairwise_lt_range' _).filter _

private theorem gzipCount_eq (outBorders : Bool) : gzipCount data outBorders borderCount =
      { count := (found data).length
        stores :=
          (if outBorders then (List.range (found data).length).zip (found data) else []) ++
            if outBorders = true ∧ (found data).length ≤ borderCount then [(borderCount, data.length)] else [] } := by
  rw [gzipCount, countFrom_eq outBorders 0 (by omega), found, range_eq_range']
  simp

private theorem stored_append (first second : List (Nat × Nat)) (slot : Nat) :
    stored (first ++ second) slot = (stored second slot).or (stored first slot) := by
  rw [stored, reverse_append, List.find?_append, map_or]
  rfl

private theorem stored_single (index place slot : Nat) :
    stored [(index, place)] slot = if index = slot then some place else none := by
  by_cases here : index = slot
  · simp [stored, here]
  · simp [stored, here]

private theorem stored_zip (places : List Nat) (start slot : Nat) :
    stored ((List.range' start places.length).zip places) slot = if start ≤ slot then places[slot - start]? else none := by
  induction places generalizing start with
  | nil => simp [stored]
  | cons place places ih =>
    have split : (List.range' start (place :: places).length).zip (place :: places) =
        [(start, place)] ++ (List.range' (start + 1) places.length).zip places := by
      rw [length_cons, List.range'_succ, zip_cons_cons]
      rfl
    rw [split, stored_append, ih, stored_single]
    by_cases here : start = slot
    · simp [here]
    · by_cases later : start ≤ slot
      · obtain ⟨more, rfl⟩ : ∃ more, slot = start + 1 + more := ⟨slot - start - 1, by omega⟩
        have index : start + 1 + more - start = more + 1 := by omega
        simp [here, later, index]
      · rw [if_neg (by omega), if_neg here, if_neg later]
        rfl

private theorem stored_found {slot : Nat} (inside : slot < (found data).length) :
    stored (gzipCount data true borderCount).stores slot = (found data)[slot]? := by
  have place := stored_zip (found data) 0 slot
  rw [← range_eq_range', if_pos (Nat.zero_le _), Nat.sub_zero] at place
  rw [gzipCount_eq]
  simp only [if_true, true_and]
  split
  next enough => rw [stored_append, stored_single, if_neg (by omega), none_or, place]
  · rw [append_nil, place]

private theorem stored_last (enough : (found data).length ≤ borderCount) :
    stored (gzipCount data true borderCount).stores borderCount = some data.length := by
  rw [gzipCount_eq]
  simp only [if_true, true_and, enough]
  rw [stored_append, stored_single, if_pos rfl]
  rfl

private theorem stores_within_iff : (∀ store ∈ (gzipCount data true borderCount).stores, store.1 ≤ borderCount) ↔
      (found data).length ≤ borderCount + 1 := by
  rw [gzipCount_eq]
  simp only [if_true, true_and]
  constructor
  · intro within
    by_contra many
    have inside : borderCount + 1 < (List.range (found data).length).length := by
      rw [length_range]
      omega
    obtain ⟨place, same⟩ : ∃ place, (found data)[borderCount + 1]? = some place :=
      ⟨_, List.getElem?_eq_getElem (by omega)⟩
    have member : (borderCount + 1, place) ∈ (List.range (found data).length).zip (found data) := by
      apply mem_of_getElem? (i := borderCount + 1)
      rw [List.getElem?_zip_eq_some]
      exact ⟨by rw [List.getElem?_range (by omega)], same⟩
    exact absurd (within _ (mem_append_left _ member)) (by simp)
  · intro few store member
    rcases mem_append.mp member with inZip | isLast
    · have index := (of_mem_zip inZip).1
      rw [mem_range] at index
      omega
    · split at isLast
      · rw [mem_singleton.mp isLast]
      · cases isLast

/-! When `flb_gzip_count` finds the members of a file. -/

def files (miniz : Miniz) (members : List Member) : List Bytes := members.map fun member => member.file miniz

/-- The count is the number of further members; as many of their beginnings as the array has room for are
stored, and, if they all are with a place left, the length of the whole in the last place. The array has one
place more than the count that is given with it. -/
structure Reports (parts : List Bytes) (borderCount : Nat) : Prop where
  count : (gzipCount parts.flatten true borderCount).count + 1 = parts.length
  within : ∀ store ∈ (gzipCount parts.flatten true borderCount).stores, store.1 ≤ borderCount
  borders : ∀ index ≤ borderCount, ∀ place, (inner 0 parts)[index]? = some place →
    stored (gzipCount parts.flatten true borderCount).stores index = some place
  last : parts.length ≤ borderCount + 1 →
    stored (gzipCount parts.flatten true borderCount).stores borderCount = some parts.flatten.length

/-- The members are told by the beginnings of their headers: the operating system of each further one is
known, nothing else looks like a header, and they begin at places that an `int` can tell. -/
structure Recognised (miniz : Miniz) (members : List Member) : Prop where
  known : ∀ member ∈ members.tail, vaildOsFlag member.os = true
  alone : ∀ i, 2 ≤ i → i < 2 ^ 31 → i + 18 ≤ (files miniz members).flatten.length →
    headerAt (files miniz members).flatten i = true → i ∈ inner 0 (files miniz members)
  low : ∀ place ∈ inner 0 (files miniz members), place < 2 ^ 31

variable {miniz : Miniz} {members : List Member} {borderCount : Nat}

private theorem headerAt_drop {p rest : Bytes} (here : p.drop i = rest) : headerAt p i = headerAt rest 0 := by
  have place : ∀ offset, p.getD (i + offset) 0 = rest.getD (0 + offset) 0 := by
    intro offset
    rw [← here, getD_eq_getElem?_getD, getD_eq_getElem?_getD, List.getElem?_drop, Nat.zero_add]
  have first := place 0
  rw [Nat.add_zero, Nat.add_zero] at first
  rw [headerAt, headerAt, first, place 1, place 2, place 9]

private theorem headerAt_file (member : Member) (more : Bytes) :
    headerAt (member.file miniz ++ more) 0 = vaildOsFlag member.os := by
  have front : ∃ rest, member.file miniz ++ more = 0x1f :: 0x8b :: 8 :: member.flags ::
      (LittleEndian.bytes 4 member.mtime.toNat ++ (member.xfl :: member.os :: rest)) := by
    rw [Member.file, Member.header, Member.base]
    refine ⟨extraBytes member.extra ++ (textBytes member.name ++ (textBytes member.comment ++
      (member.crcBytes miniz ++ (member.rest ++ more)))), ?_⟩
    simp
  obtain ⟨rest, shape⟩ := front
  rw [shape]
  rfl

private theorem file_long (nonempty : ∀ member ∈ members, member.body ≠ []) {member : Member}
    (inside : member ∈ members) :
    19 ≤ (member.file miniz).length := by
  have positive := length_pos_iff.mpr (nonempty member inside)
  simp only [Member.file, Member.header, Member.rest, length_append, Member.length_base, Member.length_footer,
    headerSize]
  omega

private theorem files_nonempty (nonempty : ∀ member ∈ members, member.body ≠ []) :
    ∀ part ∈ files miniz members, part ≠ [] := by
  intro part inside empty
  obtain ⟨member, isMember, rfl⟩ := mem_map.mp inside
  have long := @file_long miniz members nonempty member isMember
  rw [empty] at long
  cases long

private theorem between_members (nonempty : ∀ member ∈ members, member.body ≠ []) {place : Nat}
    (between : place ∈ inner 0 (files miniz members)) :
    ∃ member ∈ members.tail, headerAt (files miniz members).flatten place = vaildOsFlag member.os ∧
      2 ≤ place ∧ place + 18 ≤ (files miniz members).flatten.length := by
  obtain ⟨front, back, shape, someFront, someBack, rfl⟩ := mem_inner_iff.mp between
  obtain ⟨before, later, rfl, frontShape, backShape⟩ := map_eq_append_iff.mp shape
  cases before with
  | nil => exact absurd frontShape.symm someFront
  | cons first before =>
    cases later with
    | nil => exact absurd backShape.symm someBack
    | cons member later =>
      have firstLong := @file_long miniz _ nonempty first (by simp)
      have long := @file_long miniz _ nonempty member (by simp)
      have here : (files miniz (first :: before ++ member :: later)).flatten.drop (0 + front.flatten.length) =
          member.file miniz ++ (files miniz later).flatten := by
        rw [shape, flatten_append, Nat.zero_add, drop_left, ← backShape]
        rfl
      refine ⟨member, by simp, ?_, ?_, ?_⟩
      · rw [headerAt_drop here, headerAt_file]
      · rw [← frontShape, map_cons, flatten_cons, length_append]
        omega
      · rw [shape, flatten_append, length_append, ← backShape, map_cons, flatten_cons, length_append]
        omega

private theorem begins_between {member : Member} (further : member ∈ members.tail) :
    ∃ place ∈ inner 0 (files miniz members), headerAt (files miniz members).flatten place = vaildOsFlag member.os := by
  cases members with
  | nil => cases further
  | cons first rest =>
    obtain ⟨before, later, rfl⟩ := append_of_mem further
    have shape : files miniz (first :: (before ++ member :: later)) =
        files miniz (first :: before) ++ files miniz (member :: later) := by
      simp [files]
    refine ⟨0 + (files miniz (first :: before)).flatten.length,
      mem_inner_iff.mpr ⟨_, _, shape, by simp [files], by simp [files], rfl⟩, ?_⟩
    have here : (files miniz (first :: (before ++ member :: later))).flatten.drop
        (0 + (files miniz (first :: before)).flatten.length) = member.file miniz ++ (files miniz later).flatten := by
      rw [shape, flatten_append, Nat.zero_add, drop_left]
      rfl
    rw [headerAt_drop here, headerAt_file]

/-! ### What is found -/

private theorem found_iff (nonempty : ∀ member ∈ members, member.body ≠ []) :
    found (files miniz members).flatten = inner 0 (files miniz members) ↔ Recognised miniz members := by
  constructor
  · intro same
    refine ⟨?_, ?_, ?_⟩
    · intro member further
      obtain ⟨place, between, header⟩ := @begins_between miniz members member further
      rw [← same] at between
      rw [← header]
      exact (mem_found_iff.mp between).2
    · intro i atLeast below inside header
      rw [← same]
      exact mem_found_iff.mpr ⟨⟨atLeast, below, inside⟩, header⟩
    · intro place between
      rw [← same] at between
      exact (mem_found_iff.mp between).1.2.1
  · intro recognised
    apply pairwise_found.eq_of_mem_iff (pairwise_inner (files_nonempty nonempty))
    intro place
    rw [mem_found_iff]
    constructor
    · rintro ⟨⟨atLeast, below, inside⟩, header⟩
      exact recognised.alone place atLeast below inside header
    · intro between
      obtain ⟨member, further, header, atLeast, inside⟩ := between_members nonempty between
      exact ⟨⟨atLeast, recognised.low place between, inside⟩, header.trans (recognised.known member further)⟩

variable {parts : List Bytes}

private theorem reports_iff (nonempty : parts ≠ []) :
    Reports parts borderCount ↔ found parts.flatten = inner 0 parts ∧ parts.length ≤ borderCount + 2 := by
  have positive := length_pos_iff.mpr nonempty
  have count : (gzipCount parts.flatten true borderCount).count = (found parts.flatten).length := by rw [gzipCount_eq]
  constructor
  · intro reports
    have number := reports.count
    rw [count] at number
    have room := stores_within_iff.mp reports.within
    refine ⟨?_, by omega⟩
    apply ext_getElem?
    intro index
    by_cases inside : index < (found parts.flatten).length
    · have between : index < (inner 0 parts).length := by
        rw [length_inner]
        omega
      have right := reports.borders index (by omega) _ (List.getElem?_eq_getElem between)
      rw [stored_found inside] at right
      rw [right, List.getElem?_eq_getElem between]
    · rw [List.getElem?_eq_none (by omega), List.getElem?_eq_none (by rw [length_inner]; omega)]
  · rintro ⟨same, room⟩
    have number : (found parts.flatten).length = parts.length - 1 := by rw [same, length_inner]
    refine ⟨by omega, stores_within_iff.mpr (by omega), ?_, ?_⟩
    · intro index _ place between
      have inside : index < (found parts.flatten).length := by
        rw [same]
        exact (List.getElem?_eq_some_iff.mp between).1
      rw [stored_found inside, same, between]
    · intro fits
      exact stored_last (by omega)

private theorem stored_ends (nonempty : parts ≠ []) (reports : Reports parts borderCount)
    (fits : parts.length = borderCount + 1) :
    (List.range parts.length).map (stored (gzipCount parts.flatten true borderCount).stores) = (ends 0 parts).map some := by
  have length : (inner 0 parts).length = borderCount := by
    rw [length_inner]
    omega
  have front : (List.range borderCount).map (stored (gzipCount parts.flatten true borderCount).stores) =
      (inner 0 parts).map some := by
    apply ext_getElem?
    intro index
    by_cases inside : index < borderCount
    · have between := List.getElem?_eq_getElem (length.symm ▸ inside)
      rw [List.getElem?_map, List.getElem?_map, List.getElem?_range inside, between, map_some, map_some,
        reports.borders index (Nat.le_of_lt inside) _ between]
    · rw [List.getElem?_eq_none (by simp; omega), List.getElem?_eq_none (by simp; omega)]
  rw [fits, range_succ, map_append, front, ends_eq nonempty, map_append, map_singleton, map_singleton,
    reports.last (by omega), Nat.zero_add]

private theorem mapM_uncompress_iff
    (each : ∀ member ∈ members, flbGzipUncompress miniz (member.file miniz) = some member.data ↔ member.Accepted miniz) :
    (files miniz members).mapM (flbGzipUncompress miniz) = some (members.map Member.data) ↔
      ∀ member ∈ members, member.Accepted miniz := by
  induction members with
  | nil => exact iff_of_true rfl (forall_mem_nil _)
  | cons member members ih =>
    have later := ih fun other further => each other (mem_cons_of_mem _ further)
    rw [forall_mem_cons, ← each member mem_cons_self, ← later]
    simp [files, Option.bind_eq_some_iff]

/-- For members one behind another the borders are right, and inside the array, if and only if the members are
recognised and the array does not end before the last of their beginnings. Cut at the borders, the file gives
the texts of the members if and only if `flb_gzip_uncompress` accepts each of them. -/
theorem count_members_iff (miniz : Miniz) (At : Member → miniz.State → Nat → Nat → Prop) (members : List Member)
    (notEmpty : members ≠ []) (valid : ∀ member ∈ members, member.Valid)
    (inflates : ∀ member ∈ members, Inflates miniz (At member) member.body member.data) :
    (∀ borderCount, Reports (files miniz members) borderCount ↔
      Recognised miniz members ∧ members.length ≤ borderCount + 2) ∧
    (Recognised miniz members → ∀ borderCount, members.length = borderCount + 1 → ∀ borders,
      (List.range members.length).map (stored (gzipCount (files miniz members).flatten true borderCount).stores) =
        borders.map Option.some → (∀ member ∈ members, (member.file miniz).length < 2 ^ 32) →
        ((Boundaries.pieces 0 borders (files miniz members).flatten).mapM (flbGzipUncompress miniz) =
          Option.some (members.map Member.data) ↔ ∀ member ∈ members, member.Accepted miniz)) := by
  have nonempty : ∀ member ∈ members, member.body ≠ [] := fun member inside => (inflates member inside).nonempty
  have parts : files miniz members ≠ [] := by simpa [files] using notEmpty
  have length : (files miniz members).length = members.length := length_map ..
  have iff (borderCount : Nat) : Reports (files miniz members) borderCount ↔
      Recognised miniz members ∧ members.length ≤ borderCount + 2 := by
    rw [reports_iff parts, found_iff nonempty, length]
  refine ⟨iff, ?_⟩
  intro recognised borderCount fits borders array short
  have reports := (iff borderCount).mpr ⟨recognised, by omega⟩
  have right := stored_ends parts reports (length.trans fits)
  rw [length, array] at right
  have same : borders = ends 0 (files miniz members) := map_injective_iff.mpr (some_injective _) right
  rw [same, pieces_ends]
  apply mapM_uncompress_iff
  intro member inside
  exact Member.uncompress_iff (inflates member inside) (valid member inside) (short member inside)

/-- Two members, and an array of two places. -/
theorem two_members_reported : Reports (files storedMiniz [storedMember, storedMember]) 1 := by
  have each : ∀ {holds : Member → Prop}, holds storedMember → ∀ member ∈ [storedMember, storedMember], holds member := by
    intro holds one member inside
    rcases mem_pair.mp inside with rfl | rfl
    · exact one
    · exact one
  have all := count_members_iff storedMiniz (fun _ => StoredAt) [storedMember, storedMember] (by simp) (each stored_valid)
    (each stored_inflates)
  refine (all.1 1).mpr ⟨?_, by decide⟩
  have nonempty : ∀ member ∈ [storedMember, storedMember], member.body ≠ [] := each (by decide)
  exact (found_iff nonempty).mp (by decide +kernel)

def headerMember : Member where
  text := false
  mtime := 0
  xfl := 0
  os := 3
  extra := none
  name := none
  comment := none
  headerCrc := false
  body := [1, 10, 0, 0xf5, 0xff, 0x1f, 0x8b, 8, 0, 0, 0, 0, 0, 0, 3]
  data := [0x1f, 0x8b, 8, 0, 0, 0, 0, 0, 0, 3]
  crc := bitwiseCrc32 [0x1f, 0x8b, 8, 0, 0, 0, 0, 0, 0, 3]
  size := 10

/-- A file of one member, of which two are counted. -/
theorem stored_header_counted : ¬ Reports (files storedMiniz [headerMember]) 0 := by
  intro reports
  have counted : (gzipCount (files storedMiniz [headerMember]).flatten true 0).count = 1 := by decide +kernel
  have wrong := reports.count
  rw [counted] at wrong
  exact absurd wrong (by decide)

end FluentBit.Gzip
