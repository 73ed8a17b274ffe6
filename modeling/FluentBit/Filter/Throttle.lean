import FluentBit.Foundation.Runs
import Mathlib.Algebra.Order.Ring.Nat

/-! The sliding window of the throttle filter, after `plugins/filter_throttle`. The ticker and the
filter hold a lock around each call, so a run is their calls in any order. -/

set_option autoImplicit false

namespace FluentBit.Throttle

open List

structure Pane where
  timestamp : Int
  counter : Nat

/-- `struct throttle_window`; its size is the length of the table. -/
structure Window where
  currentTimestamp : Int
  total : Nat
  maxIndex : Int
  table : List Pane

def windowCreate (size : Nat) : Window where
  currentTimestamp := 0
  total := 0
  maxIndex := -1
  table := replicate size ⟨0, 0⟩

def Window.counted (tw : Window) : Nat := (tw.table.map Pane.counter).sum

def windowGet (tw : Window) (timestamp : Int) : Option Nat := tw.table.findIdx? (·.timestamp = timestamp)

def windowAdd (tw : Window) (timestamp : Int) (val : Nat) : Window :=
  let next : Window := match windowGet tw timestamp with
    | none =>
      let maxIndex := if (tw.table.length : Int) - 1 = tw.maxIndex then 0 else tw.maxIndex + 1
      { tw with maxIndex, table := tw.table.modify maxIndex.toNat fun _ => ⟨timestamp, val⟩ }
    | some index =>
      { tw with table := tw.table.modify index fun pane => { pane with counter := pane.counter + val } }
  { next with currentTimestamp := timestamp, total := next.counted % 2 ^ 32 }

inductive Event where
  | tick (timestamp : Int)
  | record

/-- `full` is `total / (double) size >= max_rate`, which drops a record. -/
def step (full : Nat → Bool) : Event → Window → Window
  | .tick timestamp, tw => windowAdd tw timestamp 0
  | .record, tw => if full tw.total then tw else windowAdd tw tw.currentTimestamp 1

private theorem sum_modify_le (table : List Pane) (index : Nat) {change : Pane → Pane} {val : Nat}
    (grows : ∀ pane, (change pane).counter ≤ pane.counter + val) :
    ((table.modify index change).map Pane.counter).sum ≤ (table.map Pane.counter).sum + val := by
  induction table generalizing index with
  | nil => simp
  | cons pane table ih =>
    cases index with
    | zero =>
      have first := grows pane
      simp only [modify_zero_cons, map_cons, sum_cons]
      omega
    | succ index =>
      have later := ih index
      simp only [modify_succ_cons, map_cons, sum_cons]
      omega

structure Ordered (size : Nat) (tw : Window) : Prop where
  sized : tw.table.length = size
  inside : -1 ≤ tw.maxIndex ∧ tw.maxIndex < size
  total : tw.total = tw.counted % 2 ^ 32

variable {size : Nat} {tw : Window}

theorem Ordered.windowAdd (ordered : Ordered (size + 1) tw) (timestamp : Int) (val : Nat) :
    Ordered (size + 1) (windowAdd tw timestamp val) ∧ (windowAdd tw timestamp val).counted ≤ tw.counted + val := by
  obtain ⟨sized, inside, -⟩ := ordered
  unfold Throttle.windowAdd
  split
  · refine ⟨⟨by simpa using sized, ?_, rfl⟩, sum_modify_le _ _ fun pane => Nat.le_add_left ..⟩
    simp only [sized]
    split <;> omega
  · exact ⟨⟨by simpa using sized, inside, rfl⟩, sum_modify_le _ _ fun pane => Nat.le_refl _⟩

/-- Every write is inside the table, and a window never counts more records than the first total
that is too many. -/
theorem window_within_limit (full : Nat → Bool) (size : Nat) {limit : Nat} (reached : full limit = true)
    (small : limit < 2 ^ 32) (events : List Event) :
    let tw := Runs.after (step full) (windowCreate (size + 1)) events
    Ordered (size + 1) tw ∧ tw.counted ≤ limit ∧ tw.total = tw.counted := by
  have invariant := (Runs.reached (step full) (windowCreate (size + 1)) events).invariant
    (fun tw => Ordered (size + 1) tw ∧ tw.counted ≤ limit) ?_ ?_
  · obtain ⟨ordered, bound⟩ := invariant
    exact ⟨ordered, bound, ordered.total.trans (Nat.mod_eq_of_lt (by omega))⟩
  · refine ⟨⟨by simp [windowCreate], ?_, ?_⟩, ?_⟩
    · simp only [windowCreate]
      omega
    · simp [windowCreate, Window.counted]
    · simp [windowCreate, Window.counted]
  · rintro tw event ⟨ordered, bound⟩ -
    cases event with
    | tick timestamp =>
      obtain ⟨after, few⟩ := ordered.windowAdd timestamp 0
      exact ⟨after, Nat.le_trans few bound⟩
    | record =>
      simp only [step]
      split
      · exact ⟨ordered, bound⟩
      next free =>
        have other : tw.counted ≠ limit := by
          intro same
          rw [ordered.total, same, Nat.mod_eq_of_lt small] at free
          exact free reached
        obtain ⟨after, few⟩ := ordered.windowAdd tw.currentTimestamp 1
        exact ⟨after, by omega⟩

theorem window_within_limit_twoTicks :
    let tw := Runs.after (step fun total => decide (2 ≤ total)) (windowCreate 1) [.tick 1, .record, .record, .tick 2, .record]
    Ordered 1 tw ∧ tw.counted ≤ 2 ∧ tw.total = tw.counted :=
  window_within_limit (fun total => decide (2 ≤ total)) 0 rfl (by decide) [.tick 1, .record, .record, .tick 2, .record]

end FluentBit.Throttle
