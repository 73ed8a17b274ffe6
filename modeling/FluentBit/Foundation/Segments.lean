import Mathlib.Data.List.TakeWhile

/-! Segments of a text, each ended by one symbol of some kind. -/

set_option autoImplicit false

namespace Segments

open List

variable {α : Type}

def split (ends : α → Bool) : List α → List (List α) × List α
  | [] => ([], [])
  | symbol :: text =>
    let (segments, rest) := split ends text
    if ends symbol then ([] :: segments, rest)
    else
      match segments with
      | [] => ([], symbol :: rest)
      | first :: later => ((symbol :: first) :: later, rest)

variable {ends : α → Bool} {word text first second : List α}
variable {symbol : α}

theorem drop_word (parts : text = word ++ symbol :: first) : text.drop (word.length + 1) = first := by
  rw [parts, ← drop_drop, drop_left]
  rfl

@[simp] theorem split_nil : split ends [] = ([], []) := rfl

theorem split_cons_end (isEnd : ends symbol = true) :
    split ends (symbol :: text) = ([] :: (split ends text).1, (split ends text).2) := by
  simp [split, isEnd]

theorem split_open (inside : ∀ symbol ∈ word, ends symbol = false) : split ends word = ([], word) := by
  induction word with
  | nil => rfl
  | cons symbol word ih =>
    have later := ih fun other member => inside other (mem_cons_of_mem _ member)
    simp [split, inside symbol (mem_cons_self ..), later]

theorem split_segment (inside : ∀ symbol ∈ word, ends symbol = false) (isEnd : ends symbol = true) (text : List α) :
    split ends (word ++ symbol :: text) = (word :: (split ends text).1, (split ends text).2) := by
  induction word with
  | nil => exact split_cons_end isEnd
  | cons letter word ih =>
    have later := ih fun other member => inside other (mem_cons_of_mem _ member)
    simp [split, inside letter (mem_cons_self ..), later]

theorem word_cases (ends : α → Bool) (text : List α) :
    (text.takeWhile (fun symbol => !ends symbol) = text ∧ split ends text = ([], text)) ∨
      ∃ symbol later, ends symbol = true ∧ text = text.takeWhile (fun symbol => !ends symbol) ++ symbol :: later ∧
        split ends text = (text.takeWhile (fun symbol => !ends symbol) :: (split ends later).1, (split ends later).2) := by
  have inside : ∀ symbol ∈ text.takeWhile (fun symbol => !ends symbol), ends symbol = false := by
    intro symbol member
    simpa using mem_takeWhile_imp member
  have whole := takeWhile_append_dropWhile (p := fun symbol => !ends symbol) (l := text)
  cases behind : text.dropWhile (fun symbol => !ends symbol) with
  | nil =>
    rw [behind, append_nil] at whole
    rw [whole] at inside
    exact .inl ⟨whole, split_open inside⟩
  | cons symbol later =>
    have isEnd : ends symbol = true := by
      have head := List.head?_dropWhile_not (fun symbol => !ends symbol) text
      rw [behind] at head
      simpa using head
    rw [behind] at whole
    refine .inr ⟨symbol, later, isEnd, whole.symm, ?_⟩
    have shape := split_segment inside isEnd later
    rw [whole] at shape
    exact shape

theorem split_append (first second : List α) : split ends (first ++ second) =
      ((split ends first).1 ++ (split ends ((split ends first).2 ++ second)).1, (split ends ((split ends first).2 ++ second)).2) := by
  induction length : first.length using Nat.strongRecOn generalizing first with
  | ind size ih =>
    rcases word_cases ends first with ⟨_, shape⟩ | ⟨symbol, later, isEnd, parts, shape⟩
    · rw [shape]
      rfl
    · have inside : ∀ symbol ∈ first.takeWhile (fun symbol => !ends symbol), ends symbol = false := by
        intro symbol member
        simpa using mem_takeWhile_imp member
      have shorter : later.length < size := by
        rw [← length, parts, length_append, length_cons]
        omega
      have together := ih later.length shorter later rfl
      have joined := congrArg (· ++ second) parts
      simp only [append_assoc, cons_append] at joined
      rw [joined, split_segment inside isEnd, together, shape]
      rfl

end Segments
