import Mathlib.Data.List.Basic

/-! The runs of symbols between separators. Any number of separators may stand before a run, and one
of them ends it. -/

set_option autoImplicit false

namespace Tokens

open List

variable {α : Type} (separator : α)

def spaced (gap : Nat) (run : List α) : List α := List.replicate gap separator ++ run

inductive Shape : List α → Prop where
  | blank (gap : Nat) : Shape (spaced separator gap [])
  | last (gap : Nat) {run : List α} (nonempty : run ≠ []) (inside : separator ∉ run) : Shape (spaced separator gap run)
  | more (gap : Nat) {run line : List α} (nonempty : run ≠ []) (inside : separator ∉ run) (rest : Shape line) :
      Shape (spaced separator gap (run ++ separator :: line))

variable {separator} {run line : List α}

variable (gap : Nat)

theorem spaced_succ : separator :: spaced separator gap run = spaced separator (gap + 1) run := rfl

theorem Shape.separated (shape : Shape separator line) : Shape separator (separator :: line) := by
  cases shape with
  | blank gap => exact .blank (gap + 1)
  | last gap nonempty inside => exact .last (gap + 1) nonempty inside
  | more gap nonempty inside rest => exact .more (gap + 1) nonempty inside rest

theorem Shape.fore (nonempty : run ≠ []) (inside : separator ∉ run) (rest : Shape separator line) :
    Shape separator (run ++ separator :: line) := .more 0 nonempty inside rest

theorem Shape.longer {symbol : α} (other : symbol ≠ separator) (shape : Shape separator line) :
    Shape separator (symbol :: line) := by
  have alone : separator ∉ [symbol] := by simpa using other.symm
  have joined : ∀ run, separator ∉ run → separator ∉ symbol :: run := by
    intro run inside
    simp [other.symm, inside]
  have single := cons_ne_nil symbol []
  cases shape with
  | blank gap =>
    cases gap with
    | zero => exact .last 0 single alone
    | succ gap => exact .fore single alone (.blank gap)
  | @last gap run nonempty inside =>
    cases gap with
    | zero => exact .last 0 (cons_ne_nil symbol run) (joined run inside)
    | succ gap => exact .fore single alone (.last gap nonempty inside)
  | @more gap run line nonempty inside rest =>
    cases gap with
    | zero => exact .fore (cons_ne_nil symbol run) (joined run inside) rest
    | succ gap => exact .fore single alone (.more gap nonempty inside rest)

theorem head_ne_of_run (nonempty : run ≠ []) (inside : separator ∉ run) (line : List α) :
    ∀ symbol ∈ (run ++ line).head?, symbol ≠ separator := by
  intro symbol member same
  cases run with
  | nil => exact nonempty rfl
  | cons first run =>
    rw [cons_append, List.head?_cons, Option.mem_some_iff] at member
    rw [← same, ← member] at inside
    exact inside (mem_cons_self ..)

theorem double_behind (nonempty : run ≠ []) (inside : separator ∉ run) (gap : Nat) (line : List α) :
    [separator, separator] <:+ spaced separator gap (run ++ separator :: line) ↔
      [separator, separator] <:+ line ∨ line = [separator] := by
  obtain ⟨before, final, rfl⟩ : ∃ before final, run = before ++ [final] :=
    ⟨run.dropLast, run.getLast nonempty, (dropLast_append_getLast nonempty).symm⟩
  have other : final ≠ separator := by
    rintro rfl
    exact inside (by simp)
  rw [← reverse_prefix, ← reverse_prefix, ← @reverse_inj _ line]
  simp only [spaced, reverse_append, reverse_cons, append_assoc, singleton_append, nil_append, reverse_nil]
  match line.reverse with
  | [] => simp [other.symm]
  | [symbol] => simp [eq_comm]
  | first :: second :: rest => simp

section

variable [DecidableEq α]

theorem shape (separator : α) (line : List α) : Shape separator line := by
  induction line with
  | nil => exact .blank 0
  | cons symbol line ih =>
    by_cases same : symbol = separator
    · exact same ▸ ih.separated
    · exact ih.longer same

/-! ### The front of a line -/

variable (separator) in
def runs (line : List α) : List (List α) := (line.splitOn separator).filter fun run => run ≠ []

variable (separator) in
def behindRun (line : List α) : List α := ((line.dropWhile (· = separator)).dropWhile (· ≠ separator)).drop 1

variable (separator) in
def behind : Nat → List α → List α
  | 0, line => line
  | count + 1, line => behind count (behindRun separator line)

theorem dropWhile_spaced (front : ∀ symbol ∈ line.head?, symbol ≠ separator) :
    (spaced separator gap line).dropWhile (· = separator) = line := by
  induction gap with
  | zero =>
    cases line with
    | nil => rfl
    | cons symbol line =>
      have other := front symbol rfl
      rw [spaced, replicate_zero, nil_append, dropWhile_cons_of_neg (by simpa using other)]
  | succ gap ih => rw [← spaced_succ, dropWhile_cons_of_pos (by simp), ih]

theorem dropWhile_run (inside : separator ∉ run) (line : List α) :
    (run ++ line).dropWhile (· ≠ separator) = line.dropWhile (· ≠ separator) := by
  apply dropWhile_append_of_pos
  intro symbol member
  have other : symbol ≠ separator := fun same => inside (same ▸ member)
  simpa using other

@[simp] theorem behindRun_blank : behindRun separator (spaced separator gap []) = [] := by
  rw [behindRun, dropWhile_spaced gap (by simp)]
  rfl

theorem behindRun_last (nonempty : run ≠ []) (inside : separator ∉ run) :
    behindRun separator (spaced separator gap run) = [] := by
  have front := head_ne_of_run nonempty inside []
  have passed := dropWhile_run inside []
  rw [append_nil] at front passed
  rw [behindRun, dropWhile_spaced gap front, passed]
  rfl

theorem behindRun_more (nonempty : run ≠ []) (inside : separator ∉ run) (line : List α) :
    behindRun separator (spaced separator gap (run ++ separator :: line)) = line := by
  rw [behindRun, dropWhile_spaced gap (head_ne_of_run nonempty inside _), dropWhile_run inside,
    dropWhile_cons_of_neg (by simp), drop_one, tail_cons]

theorem behind_nil (count : Nat) : behind separator count [] = [] := by
  induction count with
  | zero => rfl
  | succ count ih => exact ih

theorem runs_spaced : runs separator (spaced separator gap line) = runs separator line := by
  induction gap with
  | zero => rfl
  | succ gap ih =>
    rw [← spaced_succ, runs, splitOn_cons_eq_if_modifyHead, if_pos (beq_self_eq_true separator),
      filter_cons_of_neg (by simp)]
    exact ih

@[simp] theorem runs_nil : runs separator ([] : List α) = [] := by
  simp [runs]

/-- A run of other bytes is one token. -/
theorem runs_run (nonempty : run ≠ []) (inside : separator ∉ run) : runs separator run = [run] := by
  rw [runs, splitOn_eq_singleton inside, filter_cons_of_pos (by simpa using nonempty)]
  rfl

theorem runs_more (nonempty : run ≠ []) (inside : separator ∉ run) (line : List α) :
    runs separator (run ++ separator :: line) = run :: runs separator line := by
  rw [runs, splitOn_append_cons_of_beq run line (beq_self_eq_true separator), splitOn_eq_singleton inside,
    singleton_append, filter_cons_of_pos (by simpa using nonempty)]
  rfl

theorem ne_nil_of_mem_runs (member : run ∈ runs separator line) : run ≠ [] := by
  simpa using (mem_filter.mp member).2

theorem behind_all {count : Nat} (all : (runs separator line).length < count) : behind separator count line = [] := by
  have parts := shape separator line
  induction parts generalizing count with
  | blank gap =>
    cases count with
    | zero => cases all
    | succ count => rw [behind, behindRun_blank, behind_nil]
  | last gap nonempty inside =>
    cases count with
    | zero => cases all
    | succ count => rw [behind, behindRun_last gap nonempty inside, behind_nil]
  | more gap nonempty inside rest ih =>
    cases count with
    | zero => cases all
    | succ count =>
      rw [runs_spaced, runs_more nonempty inside, length_cons] at all
      rw [behind, behindRun_more gap nonempty inside]
      exact ih (Nat.lt_of_succ_lt_succ all)

/-- Behind the runs there is nothing but the separator of the last one, unless the line ends in two
separators or is a single one. -/
theorem behind_runs_iff : behind separator (runs separator line).length line = [] ↔
    ¬ [separator, separator] <:+ line ∧ line ≠ [separator] := by
  have parts := shape separator line
  induction parts with
  | blank gap =>
    rw [runs_spaced, runs_nil, length_nil, behind]
    match gap with
    | 0 => simp [spaced]
    | 1 => simp [spaced]
    | gap + 2 =>
      have double : [separator, separator] <:+ spaced separator (gap + 2) [] := by
        rw [spaced, append_nil, ← replicate_append_replicate]
        exact suffix_append _ _
      constructor
      · intro empty
        simp [spaced, replicate_succ] at empty
      · intro clean
        exact absurd double clean.1
  | @last gap run nonempty inside =>
    have unended : ∀ symbols, symbols ++ [separator] ≠ spaced separator gap run := by
      intro symbols same
      have final := congrArg List.getLast? same
      rw [List.getLast?_concat, spaced, List.getLast?_append_of_ne_nil _ nonempty] at final
      exact inside (mem_of_getLast? final.symm)
    rw [runs_spaced, runs_run nonempty inside, length_singleton, behind, behindRun_last gap nonempty inside]
    refine iff_of_true rfl ⟨?_, fun single => unended [] single.symm⟩
    rintro ⟨front, double⟩
    exact unended (front ++ [separator]) (by rw [append_assoc]; exact double)
  | @more gap run line nonempty inside rest ih =>
    have single : spaced separator gap (run ++ separator :: line) ≠ [separator] := by
      intro same
      have few := congrArg List.length same
      have positive := length_pos_iff.mpr nonempty
      simp only [spaced, length_append, length_cons, length_nil] at few
      omega
    rw [runs_spaced, runs_more nonempty inside, length_cons, behind, behindRun_more gap nonempty inside,
      double_behind nonempty inside, not_or, and_iff_left single]
    exact ih

end

end Tokens
