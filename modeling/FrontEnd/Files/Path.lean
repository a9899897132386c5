/-!
# File paths

Paths as text, with `/` between their components. Empty components and inner `.`
components mean nothing, but a path keeps the text it was written with until one of
the operations here changes it.
-/

namespace FrontEnd.Files

/-- A file path, as it is written. -/
structure Path where
  chars : List Char
  deriving DecidableEq, Repr

namespace Path

/-- The path that a text spells. Every text spells one. -/
def ofText (text : String) : Path := ⟨text.toList⟩

/-- The text of a path. -/
def toText (p : Path) : String := String.ofList p.chars

/-- The start of a path that is no ordinary component, and the rest: a `/` for an absolute path, or
a leading `.` component. -/
def splitHead : List Char → List Char × List Char
  | '/' :: rest => (['/'], rest)
  | ['.'] => (['.'], [])
  | '.' :: '/' :: rest => (['.'], '/' :: rest)
  | body => ([], body)

/-- A component that means nothing where it stands. -/
def isSilent (component : List Char) : Bool := component.isEmpty || component == ['.']

/-- Components with `/` between them. -/
def join (components : List (List Char)) : List Char := ['/'].intercalate components

/-- A path split before its last meaningful component. -/
structure Split where
  head : List Char
  /-- The components before the last one, the nearest first. -/
  before : List (List Char)
  last : List Char
  deriving DecidableEq, Repr

/-- Splits a path before its last meaningful component, unless it has none. -/
def split? (p : Path) : Option Split :=
  let (head, body) := splitHead p.chars
  match (body.splitOn '/').reverse.dropWhile isSilent with
  | [] => none
  | last :: before => some ⟨head, before, last⟩

/-- The path of the directory that holds the file. -/
def Split.parent (s : Split) : Path :=
  ⟨s.head ++ join (s.before.dropWhile isSilent).reverse⟩

/-- Splits before the last component, if that is a name and not a step up. -/
def file? (p : Path) : Option Split :=
  match p.split? with
  | none => none
  | some s => if s.last = ['.', '.'] then none else some s

/-- A file name cut at its last dot. A dot at the start of a name is a part of it. -/
def cutName (name : List Char) : List Char × Option (List Char) :=
  let reversed := name.reverse
  match reversed.dropWhile (· != '.') with
  | [] => (name, none)
  | _ :: stem =>
    if stem.isEmpty then (name, none)
    else (stem.reverse, some (reversed.takeWhile (· != '.')).reverse)

/-- The file's name without its extension. -/
def stem? (p : Path) : Option (List Char) := p.file?.map fun s => (cutName s.last).1

/-- What follows the last dot of the file's name. -/
def extension? (p : Path) : Option (List Char) := p.file?.bind fun s => (cutName s.last).2

/-- The path of the directory that holds the file. -/
def parent? (p : Path) : Option Path := p.file?.map Split.parent

/-- A path below another one. An absolute path stands for itself. -/
def push (p : Path) (segment : List Char) : Path :=
  if segment.head? = some '/' then ⟨segment⟩
  else if p.chars.isEmpty || p.chars.getLast? = some '/' then ⟨p.chars ++ segment⟩
  else ⟨p.chars ++ '/' :: segment⟩

/-- Replaces the extension of the file's name, or removes it if the new one is empty. A path that
names no file stays as it is. -/
def setExtension (p : Path) (extension : List Char) : Path :=
  match p.file? with
  | none => p
  | some s =>
    let stem := (cutName s.last).1
    let ending := if extension.isEmpty then [] else '.' :: extension
    ⟨s.head ++ join (stem :: s.before).reverse ++ ending⟩

end Path

end FrontEnd.Files
