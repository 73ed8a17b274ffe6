import FluentBit.StreamProcessor.Snapshot

/-! Where the copies of a snapshot end. A full page makes room by a new one, whose size nobody
compares with the record. -/

set_option autoImplicit false

namespace FluentBit.StreamProcessor.Snapshots

open List
open Event (Time unpackNext)

def PagesFit (pages : List Page) : Prop := ∀ page ∈ pages, page.endPos ≤ pageSize

theorem length_le_writeEnd (record : Bytes) (pages : List Page) : record.length ≤ writeEnd record pages := by
  unfold writeEnd
  split
  · exact Nat.le_refl _
  · split
    · exact Nat.le_refl _
    · exact Nat.le_add_left _ _

variable {record : Bytes} {pages : List Page} {tasks : List Task} {calls : List Call}

theorem writeEnd_le (fit : PagesFit pages) (small : record.length ≤ pageSize) : writeEnd record pages ≤ pageSize := by
  unfold writeEnd
  cases found : pages.getLast? with
  | none => exact small
  | some page =>
    have inside := fit page (mem_of_getLast? found)
    cases full : page.isFull record.length with
    | true => simpa [full] using small
    | false =>
      simp only [full, Bool.false_eq_true, if_false]
      simp only [Page.isFull, decide_eq_false_iff_not, inside, true_and, Nat.not_lt] at full
      omega

theorem place_fits (fit : PagesFit pages) (inside : writeEnd record pages ≤ pageSize) :
    PagesFit (place record pages) := by
  induction pages with
  | nil =>
    intro page member
    cases mem_singleton.mp member
    exact inside
  | cons page rest ih =>
    have first := fit page mem_cons_self
    cases rest with
    | nil =>
      intro other member
      simp only [writeEnd, List.getLast?_singleton] at inside
      unfold place at member
      split at member
      next full =>
        simp only [full, if_true] at inside
        cases member with
        | head => exact first
        | tail _ member =>
          cases mem_singleton.mp member
          exact inside
      next room =>
        rw [if_neg room] at inside
        cases mem_singleton.mp member
        simpa [Page.endPos] using inside
    | cons second rest =>
      have later := ih (fun page member => fit page (mem_cons_of_mem _ member))
        (by simpa [writeEnd] using inside)
      intro other member
      cases member with
      | head => exact first
      | tail _ member => exact later other member

theorem trimPage_data (tms : Time) (fuel : Nat) (snapshot : Snapshot) (page : Page) :
    (trimPage tms fuel snapshot page).2.data = page.data := by
  induction fuel generalizing snapshot page with
  | zero => rfl
  | succ fuel ih =>
    unfold trimPage
    split
    · split
      · exact ih _ _
      · rfl
    · rfl

theorem cleanup_fits (tms : Time) (fit : PagesFit pages) (snapshot : Snapshot) :
    PagesFit (cleanup tms pages snapshot).pages := by
  induction pages generalizing snapshot with
  | nil =>
    intro page member
    cases member
  | cons page rest ih =>
    have later : PagesFit rest := fun other member => fit other (mem_cons_of_mem _ member)
    simp only [cleanup]
    split
    · intro other member
      cases member with
      | head =>
        unfold Page.endPos
        rw [trimPage_data]
        exact fit page mem_cons_self
      | tail _ member => exact later other member
    · exact ih later _

theorem update_fits {snapshot : Snapshot} (tms : Time) (fit : PagesFit snapshot.pages)
    (inside : 0 < record.length → writeEnd record snapshot.pages ≤ pageSize) :
    PagesFit (snapshot.update record tms).pages := by
  unfold Snapshot.update
  split
  · exact fit
  next nonempty => exact cleanup_fits tms (place_fits fit (inside (Nat.not_le.mp nonempty))) _

/-! ### Runs -/

theorem flushFrom_each (fresh : Nat → UInt8) (name : Bytes) (tasks : List Task) (off : Nat) (out : Option Bytes) :
    List.Forall₂ (fun task old => task = old ∨ task.snapshot.pages = []) (flushFrom fresh name tasks off out).1 tasks := by
  have unchanged : ∀ tasks : List Task,
      List.Forall₂ (fun task old => task = old ∨ task.snapshot.pages = []) tasks tasks :=
    fun tasks => forall₂_same.mpr fun _ _ => .inl rfl
  induction tasks generalizing off out with
  | nil => exact .nil
  | cons task rest ih =>
    unfold flushFrom
    split
    · split
      · exact unchanged _
      · exact .cons (.inr rfl) (ih _ _)
    · exact .cons (.inl rfl) (ih _ _)

theorem step_length (call : Call) : (step call tasks).length = tasks.length := by
  cases call with
  | update target record tms => exact length_modify _ _ _
  | flush name out fresh => exact (flushFrom_each fresh name tasks 0 out).length_eq

def Call.WritesInside (tasks : List Task) : Call → Prop
  | .update target record _ =>
    ∀ task, tasks[target]? = some task → 0 < record.length → writeEnd record task.snapshot.pages ≤ pageSize
  | .flush .. => True

def TasksFit (tasks : List Task) : Prop := ∀ task ∈ tasks, PagesFit task.snapshot.pages

theorem TasksFit.step (fit : TasksFit tasks) {call : Call} (inside : call.WritesInside tasks) :
    TasksFit (step call tasks) := by
  cases call with
  | update target record tms =>
    intro task member
    obtain ⟨index, found⟩ := mem_iff_getElem?.mp member
    simp only [Snapshots.step, List.getElem?_modify, Option.map_eq_map, Option.map_eq_some_iff] at found
    obtain ⟨old, oldFound, rfl⟩ := found
    have oldFits := fit old (mem_of_getElem? oldFound)
    split
    next here =>
      subst here
      exact update_fits tms oldFits (inside old oldFound)
    · exact oldFits
  | flush name out fresh =>
    intro task member
    obtain ⟨index, found⟩ := mem_iff_getElem?.mp member
    have each := flushFrom_each fresh name tasks 0 out
    obtain ⟨bound, rfl⟩ := List.getElem?_eq_some_iff.mp found
    have oldBound : index < tasks.length := each.length_eq ▸ bound
    cases each.get bound oldBound with
    | inl same =>
      have old : tasks[index] ∈ tasks := getElem_mem oldBound
      simp only [get_eq_getElem] at same
      exact same ▸ fit _ old
    | inr emptied =>
      intro page inPage
      simp only [get_eq_getElem] at emptied
      simp only [Snapshots.step, flush, emptied] at inPage
      cases inPage

def StaysInside : List Task → List Call → Prop
  | tasks, [] => TasksFit tasks
  | tasks, call :: rest => TasksFit tasks ∧ call.WritesInside tasks ∧ StaysInside (step call tasks) rest

def RecordsFit (tasks : List Task) (calls : List Call) : Prop :=
  ∀ target record tms, .update target record tms ∈ calls → target < tasks.length → record.length ≤ pageSize

theorem StaysInside.of_fit (fit : TasksFit tasks) (records : RecordsFit tasks calls) : StaysInside tasks calls := by
  induction calls generalizing tasks with
  | nil => exact fit
  | cons call rest ih =>
    have inside : call.WritesInside tasks := by
      cases call with
      | update target record tms =>
        intro task found _
        have bound := (List.getElem?_eq_some_iff.mp found).1
        exact writeEnd_le (fit task (mem_of_getElem? found)) (records target record tms mem_cons_self bound)
      | flush name out fresh => exact True.intro
    refine ⟨fit, inside, ih (fit.step inside) ?_⟩
    intro target record tms member bound
    rw [step_length] at bound
    exact records target record tms (mem_cons_of_mem _ member) bound

theorem StaysInside.records (stays : StaysInside tasks calls) : RecordsFit tasks calls := by
  induction calls generalizing tasks with
  | nil =>
    intro target record tms member
    cases member
  | cons call rest ih =>
    obtain ⟨-, inside, later⟩ := stays
    intro target record tms member bound
    cases member with
    | head =>
      by_cases empty : 0 < record.length
      · exact Nat.le_trans (length_le_writeEnd record _) (inside _ (List.getElem?_eq_getElem bound) empty)
      · exact Nat.le_trans (Nat.not_lt.mp empty) (Nat.zero_le _)
    | tail _ member => exact ih later target record tms member (by rw [step_length]; exact bound)

/-- The writes of a run stay inside of the pages exactly when no record is larger than a page. -/
theorem staysInside_iff {tasks : List Task} (start : ∀ task ∈ tasks, task.snapshot.pages = []) (calls : List Call) :
    StaysInside tasks calls ↔ RecordsFit tasks calls := by
  constructor
  · exact StaysInside.records
  · apply StaysInside.of_fit
    intro task member page inPage
    rw [start task member] at inPage
    cases inPage

def emptyTask : Task := { streamName := [], snapshot := { timeLimit := 0, recordLimit := 5 } }

theorem staysInside_iff_sample : StaysInside [emptyTask] [.update 0 [1, 2] { sec := 0, nsec := 0 }] ↔
      RecordsFit [emptyTask] [.update 0 [1, 2] { sec := 0, nsec := 0 }] :=
  staysInside_iff (by intro task member; cases mem_singleton.mp member; rfl) _

/-- A record of one byte more than a page is copied behind the end of the page that is made for it. -/
theorem large_record_outside :
    ¬ StaysInside [emptyTask] [.update 0 (List.replicate 1025 0) { sec := 0, nsec := 0 }] := by
  intro stays
  have small := stays.records 0 (List.replicate 1025 0) { sec := 0, nsec := 0 } mem_cons_self (by decide)
  rw [length_replicate] at small
  exact absurd small (by decide)

end FluentBit.StreamProcessor.Snapshots
