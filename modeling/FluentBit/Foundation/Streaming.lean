import FluentBit.Foundation.Msgpack

/-! MessagePack objects that arrive in parts: what is wrong stays wrong whatever follows, and the
bytes of an object without the last of them are too few. -/

set_option autoImplicit false

namespace Msgpack

def Firm {α : Type} (read : Bytes → Reading α) : Prop :=
  ∀ bytes, read bytes = .bad → ∀ more, read (bytes ++ more) = .bad

section

variable {α β : Type}

theorem Firm.give (value : α) : Firm (Msgpack.give value) := by
  intro bytes wrong
  cases wrong

theorem Firm.refuse : Firm (Msgpack.refuse (α := α)) := fun _ _ _ => rfl

theorem Firm.trail (count : Nat) : Firm (Msgpack.trail count) := by
  intro bytes wrong
  unfold Msgpack.trail at wrong
  split at wrong <;> cases wrong

theorem Firm.andThen {read : Bytes → Reading α} {next : α → Bytes → Reading β} (stable : Stable read)
    (first : Firm read) (second : ∀ value, Firm (next value)) : Firm (andThen read next) := by
  intro bytes wrong more
  unfold Msgpack.andThen at wrong ⊢
  split at wrong
  next value rest done =>
    obtain ⟨used, rfl, again⟩ := stable _ _ _ done
    rw [List.append_assoc, again]
    exact second value rest wrong more
  · cases wrong
  next bad => rw [first bytes bad more]

theorem Firm.fixed (width : Nat) (make : Nat → α) : Firm (fixed width make) :=
  Firm.andThen (.trail width) (.trail width) fun _ => .give _

theorem Firm.sized (width : Nat) (make : Bytes → Object) : Firm (sized width make) :=
  Firm.andThen (.fixed width id) (.fixed width id) fun count =>
    Firm.andThen (.trail count) (.trail count) fun _ => .give _

theorem Firm.extended (count : Nat) : Firm (extended count) := by
  apply Firm.andThen (.trail _) (.trail _)
  intro data
  cases data with
  | nil => exact .refuse
  | cons type data => exact .give _

theorem Firm.ite {left right : Bytes → Reading α} (condition : Prop) [Decidable condition] (first : Firm left)
    (second : Firm right) : Firm (if condition then left else right) := by
  split
  · exact first
  · exact second

theorem Firm.readFrom (byte : UInt8) : Firm (readFrom byte) := by
  unfold Msgpack.readFrom
  repeat' apply Firm.ite
  all_goals first
    | exact .give _
    | exact .refuse
    | exact .fixed _ _
    | exact .sized _ _
    | exact .extended _
    | exact Firm.andThen (.trail _) (.trail _) fun _ => .give _
    | exact Firm.andThen (.fixed _ id) (.fixed _ id) .extended

theorem readHead_firm : Firm readHead := by
  intro bytes wrong more
  cases bytes with
  | nil => cases wrong
  | cons byte bytes => exact Firm.readFrom byte bytes wrong more

end

theorem execute_firm {limit fuel : Nat} {stack : List Frame} {bytes : Bytes}
    (wrong : execute limit fuel stack bytes = .bad) (more : Bytes) (enough : Nat) (bound : fuel ≤ enough) :
    execute limit enough stack (bytes ++ more) = .bad := by
  induction fuel generalizing stack bytes enough with
  | zero => cases wrong
  | succ fuel ih =>
    obtain ⟨enough, rfl⟩ : ∃ fewer, enough = fewer + 1 := ⟨enough - 1, by omega⟩
    unfold execute at wrong ⊢
    split at wrong
    · cases wrong
    next bad => rw [readHead_firm bytes bad more]
    next head behind found =>
      obtain ⟨used, rfl, _, again⟩ := readHead_stable found
      simp only [List.append_assoc, again]
      split at wrong
      · rfl
      · cases wrong
      · exact ih wrong enough (by omega)

theorem unpack_firm (limit : Nat) : Firm (unpack limit) := by
  intro bytes wrong more
  exact execute_firm wrong more _ (by simp)

/-- A part of an encoding asks for more bytes. -/
theorem unpack_part {limit : Nat} {part more : Bytes} {object : Object}
    (whole : unpack limit (part ++ more) = .done object []) (missing : more ≠ []) :
    ∃ rest, unpack limit part = .short rest := by
  cases read : unpack limit part with
  | short rest => exact ⟨rest, rfl⟩
  | bad =>
    rw [unpack_firm limit part read more] at whole
    cases whole
  | done value rest =>
    obtain ⟨used, rfl, _, again⟩ := unpack_stable read
    rw [List.append_assoc, again] at whole
    injection whole with _ nothing
    exact absurd (List.append_eq_nil_iff.mp nothing).2 missing

end Msgpack
