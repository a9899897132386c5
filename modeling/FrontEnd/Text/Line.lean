import FrontEnd.Text.Position

/-!
# Lines of a source

A line keeps the line feed that ends it, so the lines of a text concatenate to
the text. `lineAt` finds the line of a byte offset; an offset past the end
belongs to the last line.
-/

namespace FrontEnd.Text

/-- The lines of a text whose first line starts with `line`, of which the last character comes
first. -/
def linesFrom (line : List Char) : List Char → List (List Char)
  | [] => if line.isEmpty then [] else [line.reverse]
  | c :: cs =>
    if c = '\n' then (c :: line).reverse :: linesFrom [] cs else linesFrom (c :: line) cs

/-- The lines of a text, each with its line feed if it has one. -/
def lines (text : List Char) : List (List Char) := linesFrom [] text

theorem flatten_linesFrom (line cs : List Char) :
    (linesFrom line cs).flatten = line.reverse ++ cs := by
  induction cs generalizing line with
  | nil => cases line <;> simp [linesFrom]
  | cons c cs ih =>
    unfold linesFrom
    split <;> simp [ih]

/-- No character is lost between lines. -/
theorem flatten_lines (text : List Char) : (lines text).flatten = text := by
  simp [lines, flatten_linesFrom]

/-- A line of a text together with an offset into it. -/
structure LineOffset where
  /-- Counted from one. -/
  number : Nat
  text : List Char
  /-- In bytes from the start of the line. -/
  column : Nat
  deriving DecidableEq, Repr

/-- The line without the line feeds at its end. -/
def dropLineFeeds (line : List Char) : List Char :=
  (line.reverse.dropWhile (· == '\n')).reverse

/-- Walks over the lines from number `number` on. `last` is the answer should no line hold the
offset, which is counted from the start of the first line of the list. -/
def lineFrom (number : Nat) (last : LineOffset) : List (List Char) → Nat → LineOffset
  | [], _ => last
  | line :: rest, offset =>
    if offset < byteLength line then ⟨number, line, offset⟩
    else
      lineFrom (number + 1) ⟨number, line, byteLength (dropLineFeeds line)⟩ rest
        (offset - byteLength line)

/-- The line that holds the byte at `offset`, or the end of the last line if the text is shorter. -/
def lineAt (text : String) (offset : Nat) : LineOffset :=
  lineFrom 1 ⟨1, [], 0⟩ (lines text.toList) offset

end FrontEnd.Text
