import FrontEnd.Decimal.Double

/-!
# The shortest decimal of a double

Of all decimals that read back as a double, `Double.shortest` takes one with the
fewest digits, and of those the nearest. `Layout` says how digits and a decimal
point are laid out.
-/

namespace FrontEnd

namespace Decimal

/-- `0.d₁d₂…dₙ * 10 ^ point`, where `d₁d₂…dₙ` are the decimal digits of `digits`. -/
structure Scaled where
  digits : Nat
  point : Int
  deriving DecidableEq, Repr

/-- How a number is laid out: with its point in place if `point` is in the stated range, and with a
power of ten otherwise. -/
structure Layout where
  /-- The least and the greatest `point` that are written in place. -/
  lowest : Int
  highest : Int
  /-- What stands between the digits and the power of ten. -/
  mark : Char
  infinite : String
  deriving Repr

/-- Numbers from `0.0001` up to below `10 ^ 16` have their point in place, with a digit on both
sides of it. Others have one digit before the point, and none need follow. -/
def Layout.plain : Layout := ⟨-3, 16, 'e', "inf"⟩

/-- The digits of an integer in base ten. -/
def digitsOf (n : Nat) : List Char := Nat.toDigits 10 n

/-- The digits of an integer in base ten, without the zeros at the end. -/
def significantDigits (n : Nat) : List Char :=
  ((digitsOf n).reverse.dropWhile (· == '0')).reverse

/-- An integer in base ten, with a sign if it is negative. -/
def signed (n : Int) : List Char :=
  if n < 0 then '-' :: digitsOf n.natAbs else digitsOf n.natAbs

/-- Lays out significant digits with the point in place. -/
def inPlace (ds : List Char) (point : Int) : List Char :=
  if point ≤ 0 then ['0', '.'] ++ List.replicate point.natAbs '0' ++ ds
  else
    let whole := point.toNat
    if ds.length ≤ whole then ds ++ List.replicate (whole - ds.length) '0' ++ ['.', '0']
    else ds.take whole ++ '.' :: ds.drop whole

/-- Lays out significant digits with a power of ten. -/
def scientific (mark : Char) (ds : List Char) (point : Int) : List Char :=
  let power := mark :: signed (point - 1)
  match ds with
  | [] => power
  | [d] => d :: power
  | d :: more => d :: '.' :: more ++ power

/-- The text of a positive number. -/
def Layout.write (n : Layout) (x : Scaled) : List Char :=
  let ds := significantDigits x.digits
  if n.lowest ≤ x.point ∧ x.point ≤ n.highest then inPlace ds x.point
  else scientific n.mark ds x.point

end Decimal

namespace Double

open Decimal

/-- Every positive double is at least `10 ^ (-324)`, so after scaling by this power of ten it has
more than seventeen digits before the point. -/
def decimalShift : Nat := 344

/-- The decimal with `count` digits that reads back as `x`, if there is one; of two the nearer, and
of two equally near the greater. `magnitude` is the number of digits of `x`, scaled, before the
point. All quantities are counted in quarters of a unit in the last place, since the gap below a
power of two is half of that above it. -/
def withDigits? (x : Double) (magnitude count : Nat) : Option Scaled :=
  let scale := Nat.pow 2 x.exponent * Nat.pow 10 decimalShift
  let unit := 4 * Nat.pow 2 1074 * Nat.pow 10 (magnitude - count)
  let value := 4 * x.significand * scale
  let below := if x.significand = Nat.pow 2 52 ∧ x.exponent ≠ 0 then scale else 2 * scale
  let above := 2 * scale
  let reads := fun n =>
    let here := n * unit
    if x.significand % 2 = 0 then value ≤ here + below && here ≤ value + above
    else value < here + below && here < value + above
  let low := value / unit
  let high := low + 1
  let result := fun n =>
    some ⟨n, magnitude - decimalShift + ((digitsOf n).length - count : Nat)⟩
  match reads low, reads high with
  | true, true => if value - low * unit < high * unit - value then result low else result high
  | true, false => result low
  | false, true => result high
  | false, false => none

/-- The shortest decimal that reads back as a positive finite number. Seventeen digits always do. -/
def shortest (x : Double) : Scaled :=
  let scaled := x.significand * Nat.pow 2 x.exponent * Nat.pow 10 decimalShift
  let whole := scaled / Nat.pow 2 1074
  let magnitude := (digitsOf whole).length
  match (List.range 17).findSome? fun n => x.withDigits? magnitude (n + 1) with
  | some scaled => scaled
  | none => ⟨whole, magnitude - decimalShift⟩

/-- The text of a number in a layout. -/
def write (n : Layout) (x : Double) : String :=
  if x.isInfinite then n.infinite
  else if x.bits = 0 then "0.0"
  else String.ofList (n.write x.shortest)

/-- The text of a number, with its point in place where that is readable. -/
def toText (x : Double) : String := x.write Layout.plain

end Double

end FrontEnd
