import FrontEnd.Decimal.Double

/-!
# Number literals

A number literal is a digits part, in base two, sixteen or ten, and a suffix.
`Numeral.ofText?` takes a literal apart and gives its value: an integer must stay
below `2 ^ 64`, and a literal with a point or a floating suffix is a double.
-/

namespace FrontEnd.Token

/-- The suffix of a number literal. Without one, the literal's numeric class is left open. -/
inductive Suffix
  | none | i | u | f | i8 | i16 | i32 | i64 | u8 | u16 | u32 | u64 | f32 | f64
  deriving DecidableEq, Repr

namespace Suffix

/-- The suffix as it stands in source text. -/
def spelling : Suffix → List Char
  | none => []
  | i => ['i']
  | u => ['u']
  | f => ['f']
  | i8 => ['i', '8']
  | i16 => ['i', '1', '6']
  | i32 => ['i', '3', '2']
  | i64 => ['i', '6', '4']
  | u8 => ['u', '8']
  | u16 => ['u', '1', '6']
  | u32 => ['u', '3', '2']
  | u64 => ['u', '6', '4']
  | f32 => ['f', '3', '2']
  | f64 => ['f', '6', '4']

/-- The name of the suffix. -/
def name : Suffix → String
  | none => "None"
  | i => "I"
  | u => "U"
  | f => "F"
  | i8 => "I8"
  | i16 => "I16"
  | i32 => "I32"
  | i64 => "I64"
  | u8 => "U8"
  | u16 => "U16"
  | u32 => "U32"
  | u64 => "U64"
  | f32 => "F32"
  | f64 => "F64"

/-- The suffixes that are written out, in the order in which they are tried: those with a width
stand before the bare letters that they begin with. -/
def written : List Suffix := [i8, i16, i32, i64, u8, u16, u32, u64, f32, f64, i, u, f]

/-- The suffix that a text spells as a whole. -/
def ofText? (text : List Char) : Option Suffix := (none :: written).find? (·.spelling == text)

/-- The first suffix that a text starts with. -/
def atStart (text : List Char) : Suffix :=
  (written.find? (·.spelling.isPrefixOf text)).getD none

/-- A suffix that makes a number a double. -/
def isFloat : Suffix → Bool
  | f | f32 | f64 => true
  | _ => false

end Suffix

/-- The value of a number literal. -/
inductive Number
  | int (value : Nat)
  | float (value : Double)
  deriving DecidableEq, Repr

namespace Number

/-- The value, if it is an integer. -/
def toInt? : Number → Option Nat
  | int value => some value
  | float _ => none

/-- The value as a double; an integer goes to the nearest one. -/
def toDouble : Number → Double
  | int value => Double.ofNat value
  | float value => value

end Number

/-- A binary digit. -/
def isBit (c : Char) : Bool := c == '0' || c == '1'

/-- A digit in base ten. -/
def isDecimal (c : Char) : Bool := '0' ≤ c && c ≤ '9'

/-- A digit in base sixteen. -/
def isHex (c : Char) : Bool :=
  isDecimal c || 'a' ≤ c && c ≤ 'f' || 'A' ≤ c && c ≤ 'F'

/-- The value of a digit, in either case of its letter. -/
def digitValue (c : Char) : Nat :=
  if isDecimal c then c.toNat - '0'.toNat
  else if 'a' ≤ c then c.toNat - 'a'.toNat + 10
  else c.toNat - 'A'.toNat + 10

/-- The value of a run of digits in a base. -/
def digitsValue (base : Nat) (ds : List Char) : Nat :=
  ds.foldl (fun value d => value * base + digitValue d) 0

/-- Integer literals stay below this bound. -/
def integerBound : Nat := Nat.pow 2 64

/-- A number literal, taken apart. -/
structure Numeral where
  number : Number
  suffix : Suffix
  deriving DecidableEq, Repr

namespace Numeral

/-- The digits in base ten at the start of a text, with the point and the digits after it if there
is one. -/
def decimalPart (text : List Char) : List Char :=
  let whole := text.takeWhile isDecimal
  match text.dropWhile isDecimal with
  | '.' :: rest => whole ++ '.' :: rest.takeWhile isDecimal
  | _ => whole

/-- The digits part of a literal, with the mark of its base. -/
def digitsPart (text : List Char) : List Char :=
  match text with
  | '0' :: 'b' :: rest =>
    let ds := rest.takeWhile isBit
    if ds.isEmpty then decimalPart text else '0' :: 'b' :: ds
  | '0' :: 'x' :: rest =>
    let ds := rest.takeWhile isHex
    if ds.isEmpty then decimalPart text else '0' :: 'x' :: ds
  | _ => decimalPart text

/-- The value of a digits part that has no point. -/
def integerValue : List Char → Nat
  | '0' :: 'b' :: ds => digitsValue 2 ds
  | '0' :: 'x' :: ds => digitsValue 16 ds
  | ds => digitsValue 10 ds

/-- The value of a digits part that has a point. -/
def fractionValue (digits : List Char) : Double :=
  let whole := digits.takeWhile (· != '.')
  let places := (digits.dropWhile (· != '.')).drop 1
  Double.nearest (digitsValue 10 (whole ++ places)) (Nat.pow 10 places.length)

/-- The value of a digits part under a suffix, unless an integer is too large. -/
def value? (digits : List Char) (suffix : Suffix) : Option Number :=
  if '.' ∈ digits then some (.float (fractionValue digits))
  else
    let value := integerValue digits
    if integerBound ≤ value then none
    else if suffix.isFloat then some (.float (Double.ofNat value))
    else some (.int value)

/-- Takes a literal apart. Fails if the value is out of range, or if what follows the digits is no
suffix. -/
def ofText? (text : List Char) : Option Numeral := do
  let digits := digitsPart text
  let suffix ← Suffix.ofText? (text.drop digits.length)
  let number ← value? digits suffix
  return ⟨number, suffix⟩

end Numeral

end FrontEnd.Token
