import FrontEnd.Diagnostic.Basic
import FrontEnd.Text.Blank
import FrontEnd.Text.Line

/-!
# Reports

A diagnostic as a reader sees it: the cause, the file, and the line at fault with a
caret under the place. Blanks at the start of the line are left out, and the caret
moves with the text.
-/

namespace FrontEnd

open Text

namespace Diagnostic

/-- The part of a report that needs no source: the cause and the file. -/
def summary (d : Diagnostic) : String :=
  s!"{d.cause.headline}\n-> {d.position.file}"

/-- A character that indents a line. -/
def isIndent (c : Char) : Bool := c == ' ' || c == '\t'

/-- The text right-aligned in a column of the given width. -/
def alignRight (width : Nat) (text : List Char) : List Char :=
  List.replicate (width - text.length) ' ' ++ text

/-- The lines of a report: cause, file, an empty line of the margin, the source line, and the
caret. -/
def reportLines (d : Diagnostic) (source : String) : List (List Char) :=
  let line := lineAt source d.position.offset
  let number := (toString line.number).toList
  let margin := alignRight (number.length + 2) ['|']
  let indent := (line.text.takeWhile isIndent).length
  let shown := dropBlankEnd (line.text.drop indent)
  let dashes := List.replicate (line.column - indent) '-'
  [ d.cause.headline.toList,
    "-> ".toList ++ d.position.file.toList,
    margin,
    number ++ " | ".toList ++ shown,
    margin ++ ' ' :: dashes ++ ['^'] ]

/-- The diagnostic with the line of `source` that it points into. -/
def report (d : Diagnostic) (source : String) : String :=
  String.ofList (List.intercalate ['\n'] (d.reportLines source))

end Diagnostic

end FrontEnd
