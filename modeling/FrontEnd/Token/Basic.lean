import FrontEnd.Diagnostic.Basic
import FrontEnd.Token.Kind
import FrontEnd.Token.Numeral

/-!
# Tokens

A token is a piece of source text with its span and what it stands for. A `Buffer`
holds the tokens of one file, to which later stages refer by index.
-/

namespace FrontEnd

open Text (Position Span)

namespace Token

/-- What a token stands for. -/
inductive Shape
  | endOfFile
  | terminator
  | numeral (n : Numeral)
  /-- A name, cut at its dots. -/
  | identifier (path : List String)
  | keyword (k : Keyword)
  | mark (m : Mark)
  deriving DecidableEq, Repr

/-- The kind of token that a shape belongs to. -/
def Shape.kind : Shape → Kind
  | endOfFile => .endOfFile
  | terminator => .terminator
  | numeral n => match n.number with
    | .int _ => .integer
    | .float _ => .float
  | identifier _ => .identifier
  | keyword k => .keyword k
  | mark m => .mark m

end Token

/-- A piece of source text and what it stands for. -/
structure Token where
  shape : Token.Shape
  text : String
  span : Span
  deriving DecidableEq, Repr

namespace Token

/-- The kind of a token. -/
def kind (t : Token) : Kind := t.shape.kind

/-- The value of a number. -/
def number? (t : Token) : Option Number :=
  match t.shape with
  | .numeral n => some n.number
  | _ => none

/-- The suffix of a number; other tokens have none. -/
def suffix (t : Token) : Suffix :=
  match t.shape with
  | .numeral n => n.suffix
  | _ => .none

/-- The segments of a name; other tokens have none. -/
def path (t : Token) : List String :=
  match t.shape with
  | .identifier path => path
  | _ => []

/-- A name without a dot. -/
def isSimpleIdentifier (t : Token) : Bool :=
  match t.shape with
  | .identifier [_] => true
  | _ => false

/-- The value of an integer literal. -/
def toInt? (t : Token) : Option Nat := t.number?.bind Number.toInt?

/-- The value of a number literal as a double. -/
def toDouble? (t : Token) : Option Double := t.number?.map Number.toDouble

/-- A token for display. -/
def toText (t : Token) : String :=
  String.join ["Token \x7b\nkind: ", t.kind.name, ",\nvalue: ", t.text, "\x7d"]

/-- The tokens of one file. -/
structure Buffer where
  file : String
  tokens : List Token
  deriving DecidableEq, Repr

namespace Buffer

/-- Where a token starts. An index past the last token means the start of the file. -/
def position (b : Buffer) (index : Nat) : Position :=
  match b.tokens[index]? with
  | some t => ⟨t.span.start, b.file⟩
  | none => ⟨0, b.file⟩

/-- A fault at a token, placed in the file. -/
def locate (b : Buffer) (f : Fault) : Diagnostic := ⟨f.cause, b.position f.token⟩

end Buffer

end Token

end FrontEnd
