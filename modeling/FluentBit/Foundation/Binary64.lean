import Mathlib.Algebra.Order.Ring.Int
import Mathlib.Data.Rat.Init

/-! Double-precision numbers as their 64 bits: order, conversion from integers and
truncation to them. -/

set_option autoImplicit false

namespace Binary64

def magnitude (bits : BitVec 64) : Nat := bits.toNat % 2 ^ 63

def isNaN (bits : BitVec 64) : Bool := decide (0x7ff0000000000000 < magnitude bits)

def rank (bits : BitVec 64) : Int := if bits.msb then -(magnitude bits : Int) else magnitude bits

/-- `<` on doubles -/
def less (left right : BitVec 64) : Bool := !isNaN left && !isNaN right && decide (rank left < rank right)

/-- `==` on doubles -/
def same (left right : BitVec 64) : Bool := !isNaN left && !isNaN right && decide (rank left = rank right)

def ofSingle (bits : BitVec 32) : BitVec 64 :=
  let exponent := bits.toNat / 2 ^ 23 % 2 ^ 8
  let fraction := bits.toNat % 2 ^ 23
  let magnitude :=
    if exponent = 255 then 0x7ff * 2 ^ 52 + fraction * 2 ^ 29
    else if exponent ≠ 0 then (exponent + 896) * 2 ^ 52 + fraction * 2 ^ 29
    else if fraction = 0 then 0
    else
      let log := Nat.log2 fraction
      (log + 874) * 2 ^ 52 + (fraction - 2 ^ log) * 2 ^ (52 - log)
  BitVec.ofNat 64 (magnitude + if bits.msb then 2 ^ 63 else 0)

def ofNat (number : Nat) : Nat :=
  if number = 0 then 0
  else
    let log := Nat.log2 number
    if log ≤ 52 then (log + 1022) * 2 ^ 52 + number * 2 ^ (52 - log)
    else
      let ulp := 2 ^ (log - 52)
      let down := number / ulp
      let rest := number % ulp
      let up := decide (ulp < 2 * rest) || decide (2 * rest = ulp) && decide (down % 2 = 1)
      (log + 1022) * 2 ^ 52 + (if up then down + 1 else down)

/-- `(double) i` -/
def ofInt (number : Int) : BitVec 64 :=
  BitVec.ofNat 64 (ofNat number.natAbs + if number < 0 then 2 ^ 63 else 0)

def truncate (bits : BitVec 64) : Int :=
  let exponent := magnitude bits / 2 ^ 52
  let fraction := magnitude bits % 2 ^ 52
  let whole : Nat :=
    if exponent = 0 then 0
    else if 1075 ≤ exponent then (2 ^ 52 + fraction) * 2 ^ (exponent - 1075)
    else (2 ^ 52 + fraction) / 2 ^ (1075 - exponent)
  if bits.msb then -(whole : Int) else whole

/-- `(int64_t) d`; what has no such integer becomes the least one, as on x86-64. -/
def toInt64 (bits : BitVec 64) : BitVec 64 :=
  if isNaN bits || decide (magnitude bits = 0x7ff0000000000000) || decide (2 ^ 63 ≤ truncate bits) ||
      decide (truncate bits < -2 ^ 63)
  then BitVec.ofInt 64 (-2 ^ 63)
  else BitVec.ofInt 64 (truncate bits)

def value (bits : BitVec 64) : Option ℚ :=
  let exponent := magnitude bits / 2 ^ 52
  let fraction := magnitude bits % 2 ^ 52
  -- numbers without an exponent are those below the least normal one
  let significand : Nat := if exponent = 0 then 2 * fraction else (2 ^ 52 + fraction) * 2 ^ exponent
  if exponent = 2047 then none
  else some (mkRat (if bits.msb then -(significand : Int) else significand) (2 ^ 1075))

theorem rank_eq_of_not_less {left right : BitVec 64} (leftNumber : isNaN left = false) (rightNumber : isNaN right = false)
    (notLess : less left right = false) (notMore : less right left = false) : rank left = rank right := by
  simp only [less, leftNumber, rightNumber, Bool.not_false, Bool.true_and, decide_eq_false_iff_not] at notLess notMore
  omega

end Binary64
