import FrontEnd.Token.Numeral

/-!
# Types of values

The primitive types that a source may name, and the numeric classes that stand for
several of them until a literal's width is settled.
-/

namespace FrontEnd

/-- The static type of a value. -/
inductive ValueType
  | unknown
  | void
  | bool
  | i8 | i16 | i32 | i64
  | u8 | u16 | u32 | u64
  | f32 | f64
  /-- Any numeric type. -/
  | number
  /-- Any signed integer type. -/
  | integer
  /-- Any unsigned integer type. -/
  | unsigned
  /-- Any floating type. -/
  | float
  deriving DecidableEq, Repr, Inhabited

namespace ValueType

/-- The text of a type. Numeric classes are in braces, so that no source can name one. -/
def toText : ValueType → String
  | unknown => "?"
  | void => "void"
  | bool => "bool"
  | i8 => "i8"
  | i16 => "i16"
  | i32 => "i32"
  | i64 => "i64"
  | u8 => "u8"
  | u16 => "u16"
  | u32 => "u32"
  | u64 => "u64"
  | f32 => "f32"
  | f64 => "f64"
  | number => "\x7bnumber\x7d"
  | integer => "\x7binteger\x7d"
  | unsigned => "\x7bunsigned\x7d"
  | float => "\x7bfloat\x7d"

/-- The types that a source may name. -/
def named : List ValueType := [void, bool, i8, i16, i32, i64, u8, u16, u32, u64, f32, f64]

/-- The type that a name stands for. -/
def ofName? (name : String) : Option ValueType := named.find? (·.toText == name)

/-- The type of what gives no value. -/
def isVoid : ValueType → Bool
  | void => true
  | _ => false

/-- The type of a literal that is an integer. -/
def ofIntegerSuffix : Token.Suffix → ValueType
  | .none => number
  | .i => integer
  | .u => unsigned
  | .f => float
  | .i8 => i8
  | .i16 => i16
  | .i32 => i32
  | .i64 => i64
  | .u8 => u8
  | .u16 => u16
  | .u32 => u32
  | .u64 => u64
  | .f32 => f32
  | .f64 => f64

/-- The type of a literal that is a double: one without a suffix is of some floating type. -/
def ofFloatSuffix : Token.Suffix → ValueType
  | .none => float
  | s => ofIntegerSuffix s

end ValueType

end FrontEnd
