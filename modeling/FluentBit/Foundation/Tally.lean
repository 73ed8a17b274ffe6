import Mathlib.Algebra.BigOperators.Group.List.Basic
import Mathlib.Data.List.Nodup
import Mathlib.Tactic.Abel

/-! Counting and summing over lists whose elements are removed or replaced one
at a time. -/

set_option autoImplicit false

namespace Tally

open List Function

variable {α κ : Type}

theorem countP_eraseP {p q : α → Bool} {items : List α} {item : α} (found : items.find? p = some item) :
    items.countP q = (items.eraseP p).countP q + if q item then 1 else 0 := by
  induction items with
  | nil => simp at found
  | cons head tail ih =>
    by_cases selected : p head
    · simp only [List.find?_cons_of_pos selected, Option.some.injEq] at found
      subst found
      simp [selected, countP_cons]
    · simp only [List.find?_cons_of_neg selected] at found
      simp only [eraseP_cons_of_neg selected, countP_cons, ih found]
      omega

variable {p : α → Bool}
variable {items : List α} {item : α} {key : α → κ}

theorem sum_eraseP {M : Type} [AddCommMonoid M] (weight : α → M) (found : items.find? p = some item) :
    ((items.eraseP p).map weight).sum + weight item = (items.map weight).sum := by
  induction items with
  | nil => cases found
  | cons head tail ih =>
    by_cases selected : p head
    · rw [List.find?_cons_of_pos selected] at found
      cases found
      rw [eraseP_cons_of_pos selected, map_cons, sum_cons]
      exact add_comm _ _
    · rw [List.find?_cons_of_neg selected] at found
      rw [eraseP_cons_of_neg selected]
      simp only [map_cons, sum_cons]
      rw [add_assoc, ih found]

theorem eq_or_mem_eraseP {first : α} (found : items.find? p = some first) (member : item ∈ items) :
    item = first ∨ item ∈ items.eraseP p := by
  induction items with
  | nil => cases member
  | cons head tail ih =>
    by_cases selected : p head
    · rw [List.find?_cons_of_pos selected] at found
      cases found
      rw [eraseP_cons_of_pos selected]
      exact mem_cons.mp member
    · rw [List.find?_cons_of_neg selected] at found
      rw [eraseP_cons_of_neg selected]
      rcases mem_cons.mp member with rfl | later
      · exact .inr (mem_cons_self ..)
      · exact (ih found later).imp id (mem_cons_of_mem _)

theorem eraseP_of_find?_none (missing : items.find? p = none) : items.eraseP p = items :=
  eraseP_of_forall_not (by simpa using missing)

theorem countP_eraseP_self (p : α → Bool) (items : List α) : (items.eraseP p).countP p = items.countP p - 1 := by
  cases found : items.find? p with
  | none =>
    have absent : items.countP p = 0 := countP_eq_zero.mpr (List.find?_eq_none.mp found)
    rw [eraseP_of_find?_none found, absent]
  | some item =>
    have moved := @countP_eraseP α p p items item found
    rw [if_pos (List.find?_some found)] at moved
    omega

theorem countP_eraseP_apart {p q : α → Bool} (apart : ∀ item, p item = true → q item = false) :
    (items.eraseP p).countP q = items.countP q := by
  cases found : items.find? p with
  | none => rw [eraseP_of_find?_none found]
  | some item =>
    have moved := @countP_eraseP α p q items item found
    rw [apart item (List.find?_some found)] at moved
    exact moved.symm

theorem countP_le_one (unique : (items.map key).Nodup)
    (same : ∀ left ∈ items, ∀ right ∈ items, p left = true → p right = true → key left = key right) :
    items.countP p ≤ 1 := by
  induction items with
  | nil => exact Nat.zero_le 1
  | cons head tail ih =>
    simp only [map_cons, nodup_cons] at unique
    have later := ih unique.2 fun left leftListed right rightListed =>
      same left (mem_cons_of_mem _ leftListed) right (mem_cons_of_mem _ rightListed)
    by_cases selected : p head = true
    · have none : tail.countP p = 0 := by
        rw [countP_eq_zero]
        intro item member other
        have equal := same head (mem_cons_self ..) item (mem_cons_of_mem _ member) selected other
        exact unique.1 (mem_map.mpr ⟨item, member, equal.symm⟩)
      rw [countP_cons_of_pos selected, none]
    · rw [countP_cons_of_neg selected]
      exact later

/-- A sum is bounded by one over items of the same keys. -/
theorem sum_le_sum {weight bound : α → Nat} {others : List α} (unique : (items.map key).Nodup)
    (each : ∀ item ∈ items, weight item ≠ 0 → ∃ other ∈ others, key other = key item ∧ weight item ≤ bound other) :
    (items.map weight).sum ≤ (others.map bound).sum := by
  induction items generalizing others with
  | nil => exact Nat.zero_le _
  | cons head tail ih =>
    rw [map_cons, nodup_cons] at unique
    rw [map_cons, sum_cons]
    by_cases light : weight head = 0
    · rw [light, Nat.zero_add]
      exact ih unique.2 fun item included => each item (mem_cons_of_mem _ included)
    · obtain ⟨other, member, same, heavier⟩ := each head mem_cons_self light
      obtain ⟨before, after, rfl⟩ := append_of_mem member
      have rest : (tail.map weight).sum ≤ ((before ++ after).map bound).sum := by
        apply ih unique.2
        intro item included weighs
        obtain ⟨third, thirdMember, thirdSame, thirdHeavier⟩ := each item (mem_cons_of_mem _ included) weighs
        have apart : third ≠ other := by
          intro equal
          rw [equal, same] at thirdSame
          exact unique.1 (mem_map.mpr ⟨item, included, thirdSame.symm⟩)
        refine ⟨third, ?_, thirdSame, thirdHeavier⟩
        rw [mem_append, mem_cons] at thirdMember
        rw [mem_append]
        exact thirdMember.imp id fun here => here.resolve_left apart
      calc weight head + (tail.map weight).sum
          ≤ bound other + ((before ++ after).map bound).sum := Nat.add_le_add heavier rest
        _ = ((before ++ other :: after).map bound).sum := by
          simp only [map_append, sum_append, map_cons, sum_cons]
          exact Nat.add_left_comm _ _ _

theorem exists_split (unique : (items.map key).Nodup) (member : item ∈ items) :
    ∃ before after, items = before ++ item :: after ∧ ∀ other ∈ before ++ after, key other ≠ key item := by
  obtain ⟨before, after, rfl⟩ := append_of_mem member
  rw [map_append, map_cons, nodup_middle, nodup_cons, ← map_append] at unique
  exact ⟨before, after, rfl, fun other listed same => unique.1 (mem_map.mpr ⟨other, listed, same⟩)⟩

section Keyed

variable [DecidableEq κ] (key : α → κ)

def replace (k : κ) (change : α → α) (items : List α) : List α :=
  items.map fun item => if key item = k then change item else item

def discard (k : κ) (items : List α) : List α :=
  items.filter fun item => decide (key item ≠ k)

variable {key} {k : κ} {change : α → α} {items : List α}
variable {item : α} {k' : κ} {β : Type} {f : α → β}

theorem mem_replace : item ∈ replace key k change items ↔
      ∃ old ∈ items, (if key old = k then change old else old) = item := by
  simp [replace]

theorem mem_discard : item ∈ discard key k items ↔ item ∈ items ∧ key item ≠ k := by
  simp [discard]

theorem discard_of_forall_ne (missing : ∀ item ∈ items, key item ≠ k) : discard key k items = items := by
  simp only [discard, filter_eq_self, decide_eq_true_eq]
  exact missing

theorem replace_eq_self (fixed : ∀ item ∈ items, key item = k → change item = item) :
    replace key k change items = items := by
  calc replace key k change items = items.map id := by
        apply map_congr_left
        intro item included
        by_cases same : key item = k
        · simp [same, fixed item included same]
        · simp [same]
    _ = items := map_id items

theorem replace_of_forall_ne (missing : ∀ item ∈ items, key item ≠ k) : replace key k change items = items :=
  replace_eq_self fun item included same => absurd same (missing item included)

theorem find?_replace (fixed : ∀ item, key (change item) = key item)
    (found : items.find? (fun item => decide (key item = k)) = some item) :
    (replace key k change items).find? (fun item => decide (key item = k)) = some (change item) := by
  have same : key item = k := by simpa using List.find?_some found
  have keys : (fun item => decide (key item = k)) ∘ (fun item => if key item = k then change item else item) =
      fun item => decide (key item = k) := by
    funext item
    simp only [comp_apply]
    split
    · rw [fixed]
    · rfl
  unfold replace
  rw [List.find?_map, keys, found, Option.map_some, if_pos same]

theorem find?_replace_other (fixed : ∀ item, key (change item) = key item) (apart : k' ≠ k) :
    (replace key k change items).find? (fun item => decide (key item = k')) =
      items.find? (fun item => decide (key item = k')) := by
  induction items with
  | nil => rfl
  | cons head tail ih =>
    unfold replace at ih ⊢
    rw [map_cons, List.find?_cons, List.find?_cons, ih]
    by_cases here : key head = k
    · have other : decide (key head = k') = false := decide_eq_false fun same => apart (same.symm.trans here)
      rw [if_pos here, fixed, other]
    · rw [if_neg here]

theorem find?_discard_other (apart : k' ≠ k) : (discard key k items).find? (fun item => decide (key item = k')) =
      items.find? (fun item => decide (key item = k')) := by
  induction items with
  | nil => rfl
  | cons head tail ih =>
    unfold discard at ih ⊢
    by_cases here : key head = k
    · have other : decide (key head = k') = false := decide_eq_false fun same => apart (same.symm.trans here)
      rw [filter_cons_of_neg (by simpa using here), ih, List.find?_cons, other]
    · rw [filter_cons_of_pos (by simpa using here), List.find?_cons, List.find?_cons, ih]

theorem replace_replace {second : α → α} (fixed : ∀ item, key (change item) = key item) :
    replace key k second (replace key k change items) = replace key k (second ∘ change) items := by
  simp only [replace, map_map]
  apply map_congr_left
  intro item _
  by_cases same : key item = k
  · simp [same, fixed]
  · simp [same]

theorem map_replace_of_fixed (fixed : ∀ item, f (change item) = f item) :
    (replace key k change items).map f = items.map f := by
  simp only [replace, map_map]
  apply map_congr_left
  intro item _
  simp only [comp_apply]
  split
  · exact fixed item
  · rfl

theorem map_replace {β : Type} {key' : β → κ} {f : α → β} {change' : β → β} (keys : ∀ item, key' (f item) = key item)
    (commutes : ∀ item ∈ items, key item = k → f (change item) = change' (f item)) :
    (replace key k change items).map f = replace key' k change' (items.map f) := by
  unfold replace
  rw [map_map, map_map]
  apply map_congr_left
  intro item member
  simp only [comp_apply, keys]
  split
  next same => exact commutes item member same
  · rfl

theorem map_discard {key' : β → κ} (keys : ∀ item, key' (f item) = key item) :
    (discard key k items).map f = discard key' k (items.map f) := by
  unfold discard
  rw [filter_map]
  congr 2
  funext item
  simp [keys]

theorem countP_others (unique : (items.map key).Nodup) {item : α} (member : item ∈ items) (selected : p item = true) :
    items.countP p = items.countP (fun other => p other && decide (key other ≠ key item)) + 1 := by
  rw [countP_eq_countP_filter_add items p fun other => decide (key other ≠ key item), countP_filter, countP_filter]
  congr 1
  apply Nat.le_antisymm
  · apply countP_le_one unique
    intro left _ right _ leftSame rightSame
    simp only [ne_eq, decide_not, Bool.not_not, Bool.and_eq_true, decide_eq_true_eq] at leftSame rightSame
    rw [leftSame.2, rightSame.2]
  · exact countP_pos_iff.mpr ⟨item, member, by simp [selected]⟩

theorem sum_replace {M : Type} [AddCommMonoid M] {weight : α → M}
    (unique : (items.map key).Nodup) {old : α} (member : old ∈ items) (same : key old = k) :
    ((replace key k change items).map weight).sum + weight old = (items.map weight).sum + weight (change old) := by
  obtain ⟨before, after, rfl, others⟩ := exists_split unique member
  have kept := @replace_of_forall_ne α κ _ key k change _ (same ▸ others)
  rw [replace, map_append] at kept
  obtain ⟨front, rest⟩ := append_inj kept (length_map _)
  simp only [replace, map_append, map_cons, if_pos same, front, rest, sum_append, sum_cons]
  abel

theorem sum_discard {M : Type} [AddCommMonoid M] {weight : α → M}
    (unique : (items.map key).Nodup) {old : α} (member : old ∈ items) (same : key old = k) :
    ((discard key k items).map weight).sum + weight old = (items.map weight).sum := by
  obtain ⟨before, after, rfl, others⟩ := exists_split unique member
  have kept := @discard_of_forall_ne α κ _ key k _ (same ▸ others)
  have gone : discard key k (before ++ old :: after) = before ++ after := by
    rw [discard, filter_append, filter_cons_of_neg (by simp [same]), ← filter_append]
    exact kept
  simp only [gone, map_append, map_cons, sum_append, sum_cons]
  abel

end Keyed

end Tally

/-! Records that are closed into slots and dropped slot by slot, and totals of them. What is
kept of a slot may be a difference of totals: the totals of what follows come out of it. -/

structure Ledger (Record : Type) where
  closed : List (List Record)
  current : List Record

namespace Ledger

variable {Record : Type}

def empty : Ledger Record := { closed := [], current := [] }

def remaining (ledger : Ledger Record) : List Record := ledger.closed.flatten ++ ledger.current

def add (records : List Record) (ledger : Ledger Record) : Ledger Record :=
  { ledger with current := ledger.current ++ records }

def close (ledger : Ledger Record) : Ledger Record :=
  { closed := ledger.closed ++ [ledger.current], current := [] }

def prune (ledger : Ledger Record) : Ledger Record := { ledger with closed := ledger.closed.tail }

theorem remaining_add (records : List Record) (ledger : Ledger Record) :
    (ledger.add records).remaining = ledger.remaining ++ records := by
  simp [remaining, add]

theorem remaining_close (ledger : Ledger Record) : ledger.close.remaining = ledger.remaining := by
  simp [remaining, close]

theorem remaining_prune {ledger : Ledger Record} {slot : List Record} {rest : List (List Record)}
    (oldest : ledger.closed = slot :: rest) : ledger.remaining = slot ++ ledger.prune.remaining := by
  simp [remaining, prune, oldest]

section

variable {Amount : Type} (weight : Record → Amount)

def total [Add Amount] [Zero Amount] (records : List Record) : Amount := (records.map weight).sum

theorem total_append [AddMonoid Amount] (first second : List Record) :
    total weight (first ++ second) = total weight first + total weight second := by
  simp [total]

theorem total_append_sub [AddCommGroup Amount] (first second : List Record) :
    total weight (first ++ second) - total weight first = total weight second := by
  rw [total_append, add_sub_cancel_left]

end

end Ledger
