import FluentBit.Foundation.Ascii
import Mathlib.Data.List.Lex
import Mathlib.Data.List.TakeWhile

/-! Comparisons that answer with a number, of which only the sign counts, against a linear
order. -/

set_option autoImplicit false

namespace Signs

open List

variable {α : Type} [LinearOrder α]

structure Tells (result : Int) (left right : α) : Prop where
  negative : result < 0 ↔ left < right
  positive : 0 < result ↔ right < left

variable {result : Int}
variable {left right : α}

theorem Tells.zero (tells : Tells result left right) : result = 0 ↔ left = right := by
  constructor
  · rintro rfl
    apply le_antisymm
    · exact not_lt.mp fun above => absurd (tells.positive.mpr above) (Int.lt_irrefl 0)
    · exact not_lt.mp fun below => absurd (tells.negative.mpr below) (Int.lt_irrefl 0)
  · rintro rfl
    have notBelow := mt tells.negative.mp (lt_irrefl left)
    have notAbove := mt tells.positive.mp (lt_irrefl left)
    omega

theorem Tells.same (zero : result = 0) (equal : left = right) : Tells result left right := by
  subst zero equal
  simp [Tells.mk]

theorem Tells.less (negative : result < 0) (below : left < right) : Tells result left right :=
  ⟨iff_of_true negative below, iff_of_false (by omega) (lt_asymm below)⟩

theorem Tells.more {left right : α} (positive : 0 < result) (above : right < left) : Tells result left right :=
  ⟨iff_of_false (by omega) (lt_asymm above), iff_of_true positive above⟩

theorem Tells.cons {left right : List α} (tells : Tells result left right) (first : α) :
    Tells result (first :: left) (first :: right) := by
  constructor
  · rw [tells.negative, cons_lt_cons_iff]
    simp
  · rw [tells.positive, cons_lt_cons_iff]
    simp

theorem Tells.head {first second : α} (tells : Tells result first second) (decided : result ≠ 0) (left right : List α) :
    Tells result (first :: left) (second :: right) := by
  have apart : first ≠ second := fun same => decided (tells.zero.mpr same)
  constructor
  · rw [tells.negative, cons_lt_cons_iff]
    simp [apart]
  · rw [tells.positive, cons_lt_cons_iff]
    simp [apart.symm]

end Signs

/-! Strings that a zero byte ends, and the order of `strcmp`. -/

namespace CString

open List Bool UInt8

def text (bytes : Bytes) : Bytes := bytes.takeWhile (· ≠ 0)

theorem text_eq_self {bytes : Bytes} (absent : 0 ∉ bytes) : text bytes = bytes := by
  unfold text
  rw [takeWhile_eq_self_iff]
  intro byte member
  simp only [ne_eq, decide_eq_true_eq]
  rintro rfl
  exact absent member

theorem text_append {front : Bytes} (absent : 0 ∉ front) (back : Bytes) :
    text (front ++ back) = front ++ text back := by
  apply takeWhile_append_of_pos
  intro byte member
  simp only [ne_eq, decide_eq_true_eq]
  rintro rfl
  exact absent member

def compareBytes : Bytes → Bytes → Ordering
  | [], [] => .eq
  | [], _ :: _ => .lt
  | _ :: _, [] => .gt
  | first :: left, second :: right =>
    if first < second then .lt else if second < first then .gt else compareBytes left right

def strcmp (left right : Bytes) : Ordering := compareBytes (text left) (text right)

def strncmp (left right : Bytes) (count : Nat) : Ordering :=
  compareBytes ((text left).take count) ((text right).take count)

def sign : Ordering → Int
  | .lt => -1
  | .eq => 0
  | .gt => 1

def numbers (bytes : Bytes) : List Int := bytes.map fun byte => (byte.toNat : Int)

variable (left right : Bytes)

theorem compareBytes_signs : Signs.Tells (sign (compareBytes left right)) (numbers left) (numbers right) := by
  induction left generalizing right with
  | nil =>
    cases right with
    | nil => exact .same rfl rfl
    | cons second right => exact .less (by simp [compareBytes, sign]) (by simp [numbers])
  | cons first left ih =>
    cases right with
    | nil => exact .more (by simp [compareBytes, sign]) (by simp [numbers])
    | cons second right =>
      simp only [compareBytes, numbers, map_cons]
      split
      next before =>
        rw [lt_iff_toNat_lt] at before
        exact .less (by decide) (cons_lt_cons_iff.mpr (.inl (by exact_mod_cast before)))
      next notBefore =>
        split
        next after =>
          rw [lt_iff_toNat_lt] at after
          exact .more (by decide) (cons_lt_cons_iff.mpr (.inl (by exact_mod_cast after)))
        next notAfter =>
          rw [lt_iff_toNat_lt] at notBefore notAfter
          have same : (first.toNat : Int) = second.toNat := by omega
          rw [same]
          exact (ih right).cons _

theorem numbers_injective {left right : Bytes} (same : numbers left = numbers right) : left = right := by
  apply map_injective_iff.mpr _ same
  intro first second equal
  exact UInt8.toNat_inj.mp (Int.ofNat_inj.mp equal)

theorem compareBytes_eq_iff {left right : Bytes} : compareBytes left right = .eq ↔ left = right := by
  constructor
  · intro equal
    induction left generalizing right with
    | nil =>
      cases right with
      | nil => rfl
      | cons second right => cases equal
    | cons first left ih =>
      cases right with
      | nil => cases equal
      | cons second right =>
        unfold compareBytes at equal
        split at equal
        · cases equal
        next notBefore =>
          split at equal
          · cases equal
          next notAfter =>
            have same : first = second := UInt8.le_antisymm (UInt8.not_lt.mp notAfter) (UInt8.not_lt.mp notBefore)
            rw [same, ih equal]
  · rintro rfl
    induction left with
    | nil => rfl
    | cons first left ih => simpa [compareBytes] using ih

theorem strncmp_eq_comm (count : Nat) : strncmp left right count = .eq ↔ strncmp right left count = .eq := by
  unfold strncmp
  rw [compareBytes_eq_iff, compareBytes_eq_iff]
  exact eq_comm

theorem sign_eq_zero_iff {order : Ordering} : sign order = 0 ↔ order = .eq := by
  cases order <;> decide

theorem strncmp_eq_iff {left right : Bytes} (noZero : 0 ∉ left) (length : left.length = right.length) :
    strncmp left right right.length = .eq ↔ left = right := by
  unfold strncmp
  rw [compareBytes_eq_iff, text_eq_self noZero, ← length, take_length]
  have short : (text right).length ≤ left.length := by
    rw [length]
    exact (takeWhile_sublist _).length_le
  rw [take_of_length_le short]
  constructor
  · intro same
    rw [same] at length
    rw [same]
    exact ( takeWhile_prefix _).eq_of_length length
  · rintro rfl
    exact (text_eq_self noZero).symm

theorem compareBytes_swap : (compareBytes left right).swap = compareBytes right left := by
  induction left generalizing right with
  | nil =>
    cases right with
    | nil => rfl
    | cons second right => rfl
  | cons first left ih =>
    cases right with
    | nil => rfl
    | cons second right =>
      simp only [compareBytes]
      by_cases same : first = second
      · subst same
        simpa using ih right
      · rcases UInt8.lt_or_lt_of_ne same with below | above
        · simp [below, UInt8.lt_asymm below, Ordering.swap]
        · simp [above, UInt8.lt_asymm above, Ordering.swap]

theorem compareBytes_append (common left right : Bytes) :
    compareBytes (common ++ left) (common ++ right) = compareBytes left right := by
  induction common with
  | nil => rfl
  | cons byte common ih => simpa [compareBytes] using ih

/-- Two texts share a beginning, behind which they differ or one of them ends. -/
theorem exists_common : ∃ common leftRest rightRest, left = common ++ leftRest ∧ right = common ++ rightRest ∧
      ∀ first firsts second seconds, leftRest = first :: firsts → rightRest = second :: seconds → first ≠ second := by
  induction left generalizing right with
  | nil => exact ⟨[], [], right, rfl, rfl, nofun⟩
  | cons first left ih =>
    cases right with
    | nil => exact ⟨[], first :: left, [], rfl, rfl, fun _ _ _ _ _ => nofun⟩
    | cons second right =>
      by_cases same : first = second
      · subst same
        obtain ⟨common, leftRest, rightRest, rfl, rfl, apart⟩ := ih right
        exact ⟨first :: common, leftRest, rightRest, rfl, rfl, apart⟩
      · refine ⟨[], first :: left, second :: right, rfl, rfl, ?_⟩
        intro _ _ _ _ leftSplit rightSplit
        cases leftSplit
        cases rightSplit
        exact same

variable {first second : UInt8} {count : Nat} {common : Bytes}

theorem compareBytes_text (apart : first ≠ second) (some : count ≠ 0) (left right : Bytes) :
    compareBytes ((text (first :: left)).take count) ((text (second :: right)).take count) =
      compareBytes (first :: left) (second :: right) := by
  obtain ⟨count, rfl⟩ := Nat.exists_eq_succ_of_ne_zero some
  have decided : ∀ leftRest rightRest : Bytes,
      compareBytes (first :: leftRest) (second :: rightRest) = if first < second then .lt else .gt := by
    intro leftRest rightRest
    rcases UInt8.lt_or_lt_of_ne apart with below | above
    · simp [compareBytes, below]
    · simp [compareBytes, above, UInt8.lt_asymm above]
  rw [decided]
  by_cases firstZero : first = 0
  · subst firstZero
    have nonzero : second ≠ 0 := apart.symm
    simp [text, nonzero, compareBytes, UInt8.pos_iff_ne_zero.mpr nonzero]
  · by_cases secondZero : second = 0
    · subst secondZero
      simp [text, firstZero, compareBytes]
    · simp only [text, takeWhile_cons, ne_eq, firstZero, secondZero, not_false_eq_true, decide_true, if_true,
        take_succ_cons]
      exact decided _ _

theorem strncmp_of_apart (noZero : 0 ∉ common) (apart : first ≠ second) (left right : Bytes)
    (reaches : common.length < count) : strncmp (common ++ first :: left) (common ++ second :: right) count =
      compareBytes (common ++ first :: left) (common ++ second :: right) := by
  unfold strncmp
  rw [text_append noZero, text_append noZero, take_append, take_append,
    take_of_length_le (Nat.le_of_lt reaches), compareBytes_append, compareBytes_append]
  exact compareBytes_text apart (by omega) left right

theorem text_append_of_zero (zero : 0 ∈ common) (rest : Bytes) : text (common ++ rest) = text common := by
  obtain ⟨before, after, rfl, noZero⟩ := eq_append_cons_of_mem zero
  rw [append_assoc, text_append noZero, text_append noZero]
  simp [text]

theorem strncmp_append_self (left rest : Bytes) : strncmp left (left ++ rest) left.length = .eq := by
  unfold strncmp
  rw [compareBytes_eq_iff]
  by_cases zero : 0 ∈ left
  · rw [text_append_of_zero zero]
  · rw [text_append zero, text_eq_self zero, take_length, take_left]

theorem strncmp_length_eq_iff {left right : Bytes} (noZero : 0 ∉ left) :
    strncmp left right left.length = .eq ↔ left <+: right := by
  constructor
  · intro same
    rw [strncmp, compareBytes_eq_iff, text_eq_self noZero, take_length] at same
    rw [same]
    exact ( take_prefix _ _).trans ( takeWhile_prefix _)
  · rintro ⟨rest, rfl⟩
    exact strncmp_append_self left rest

end CString
