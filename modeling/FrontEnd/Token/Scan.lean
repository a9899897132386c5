import FrontEnd.Token.Basic
import FrontEnd.Token.Pattern

/-!
# Scanning

From source text to tokens. Blanks and comments are dropped, and of several
terminators in a row only the first is kept, none at the start of a file. The last
token is the only one of kind end of file.
-/

namespace FrontEnd.Token

open Text (byteLength)

/-- The segments of a dotted name. -/
def segments (text : List Char) : List String :=
  (text.splitOn '.').map String.ofList

/-- What a dotted name stands for: a reserved word only if it is the whole of it. -/
def shapeOfName (text : List Char) : Shape :=
  match Keyword.ofText? (String.ofList text) with
  | some k => .keyword k
  | none => .identifier (segments text)

/-- Whether a terminator would say nothing here: at the start of a file, or after another one. -/
def afterTerminator : List Token → Bool
  | [] => true
  | t :: _ => t.shape = .terminator

/-- What a lexeme stands for, after the tokens in `done`, the last one first. Some stand for
nothing. -/
def Lexeme.shape? (done : List Token) (l : Lexeme) : Except Cause (Option Shape) :=
  match l.pattern with
  | .name => .ok (some (shapeOfName l.text))
  | .number => match Numeral.ofText? l.text with
    | some n => .ok (some (.numeral n))
    | none => .error (.numberOutOfRange (String.ofList l.text))
  | .space | .lineComment | .blockComment => .ok none
  | .terminator => .ok (if afterTerminator done then none else some .terminator)
  | .mark m => .ok (some (.mark m))

/-- Turns lexemes into tokens. `done` holds the tokens so far, the last one first, and `offset` is
the place of the next lexeme. -/
def assemble (file : String) (done : List Token) (offset : Nat) :
    List Lexeme → Except Diagnostic (List Token × Nat)
  | [] => .ok (done, offset)
  | l :: ls =>
    let stop := offset + byteLength l.text
    match l.shape? done with
    | .error cause => .error ⟨cause, ⟨offset, file⟩⟩
    | .ok none => assemble file done stop ls
    | .ok (some shape) =>
      assemble file (⟨shape, String.ofList l.text, ⟨offset, stop⟩⟩ :: done) stop ls

/-- The tokens of a file. -/
def Buffer.scan (file source : String) : Except Diagnostic Buffer :=
  let (ls, rest) := lexemes source.toList
  match assemble file [] 0 ls with
  | .error d => .error d
  | .ok (done, offset) =>
    match rest with
    | c :: _ => .error ⟨.unrecognisedToken (String.singleton c), ⟨offset, file⟩⟩
    | [] => .ok ⟨file, (⟨.endOfFile, "EOF", ⟨offset, offset⟩⟩ :: done).reverse⟩

/-- The name of a source that has none of its own. -/
def unnamed : String := "shell"

end FrontEnd.Token
