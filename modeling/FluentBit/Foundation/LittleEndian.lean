import FluentBit.Foundation.Ascii
import Mathlib.Algebra.Order.Ring.Nat

/-! Numbers with the least significant byte first. -/

set_option autoImplicit false

namespace LittleEndian

def bytes : Nat → Nat → Bytes
  | 0, _ => []
  | width + 1, number => UInt8.ofNat number :: bytes width (number / 256)

def value : Bytes → Nat
  | [] => 0
  | byte :: rest => byte.toNat + 256 * value rest

@[simp] theorem length_bytes (width number : Nat) : (bytes width number).length = width := by
  induction width generalizing number with
  | zero => rfl
  | succ width ih => rw [bytes, List.length_cons, ih]

theorem value_bytes {width number : Nat} (small : number < 256 ^ width) : value (bytes width number) = number := by
  induction width generalizing number with
  | zero =>
    rw [Nat.pow_zero] at small
    rw [bytes, value]
    omega
  | succ width ih =>
    have rest : number / 256 < 256 ^ width := by
      rw [Nat.div_lt_iff_lt_mul (by decide), ← Nat.pow_succ]
      exact small
    rw [bytes, value, ih rest, UInt8.toNat_ofNat']
    omega

end LittleEndian
