/-!
# Non-negative double precision numbers

A non-negative double is `s * 2 ^ e` units of `2 ^ (-1074)`, with `s < 2 ^ 53` and
`2 ^ 52 ≤ s` unless `e = 0`. Its bit pattern is then `e * 2 ^ 52 + s`, for normal
and subnormal numbers alike, and the patterns are ordered as the numbers are.
-/

namespace FrontEnd

/-- A non-negative double precision number, by its bit pattern. -/
structure Double where
  bits : Nat
  deriving DecidableEq, Repr, Inhabited

namespace Double

/-- Larger than every finite number. -/
def infinity : Double := ⟨2046 * Nat.pow 2 52 + Nat.pow 2 52⟩

/-- Whether a number is greater than every finite one. -/
def isInfinite (x : Double) : Bool := infinity.bits ≤ x.bits

/-- The power of two that the significand is scaled by. -/
def exponent (x : Double) : Nat := x.bits / Nat.pow 2 52 - 1

/-- The integer that is scaled. -/
def significand (x : Double) : Nat := x.bits - x.exponent * Nat.pow 2 52

/-- A quotient rounded to the nearest integer, a half to the even one. -/
def roundQuotient (num den : Nat) : Nat :=
  let floor := num / den
  let twice := 2 * (num % den)
  if twice < den then floor
  else if den < twice then floor + 1
  else floor + floor % 2

/-- The double nearest to `num / den`, of two equally near ones the one with an even significand.
A significand rounded up to `2 ^ 53` carries into the exponent of the bit pattern. -/
def nearest (num den : Nat) : Double :=
  let units := num * Nat.pow 2 1074
  let width := if units / den = 0 then 0 else (units / den).log2 + 1
  let exponent := width - 53
  let bits := exponent * Nat.pow 2 52 + roundQuotient units (den * Nat.pow 2 exponent)
  ⟨min bits infinity.bits⟩

/-- The double nearest to a natural number. -/
def ofNat (n : Nat) : Double := nearest n 1

example : ofNat 1 = ⟨0x3ff0000000000000⟩ := by decide +kernel
example : nearest 1 10 = ⟨0x3fb999999999999a⟩ := by decide +kernel
example : ofNat (Nat.pow 2 53 + 1) = ofNat (Nat.pow 2 53) := by decide +kernel

end Double

end FrontEnd
