import FrontEnd.Files.Path

/-!
# Directories

A directory given by the files below it. Looking up a path follows its components
one by one, so every component but the last must lead to a directory.
-/

namespace FrontEnd.Files

/-- A file below a directory. -/
structure Entry where
  /-- The components of the file's path below the directory. -/
  path : List (List Char)
  text : String
  deriving DecidableEq, Repr

/-- A directory, by all files below it. -/
structure Directory where
  entries : List Entry
  deriving DecidableEq, Repr

namespace Directory

/-- A directory of files that are given by their paths below it. The last text given for a path
counts. -/
def ofList (files : List (String × String)) : Directory :=
  ⟨files.reverse.map fun (path, text) =>
    ⟨(path.toList.splitOn '/').filter fun c => !Path.isSilent c, text⟩⟩

/-- Whether a place below the directory is a directory: the directory itself, or one on the way to
a file. -/
def isDirectory (d : Directory) (place : List (List Char)) : Bool :=
  place.isEmpty || d.entries.any fun e => place.isPrefixOf e.path && place.length < e.path.length

/-- Follows the components of a path from a place, which is given with its last component first.
A step up from the directory itself leads to nothing that is known. -/
def walk (d : Directory) (place : List (List Char)) : List (List Char) → Option (List (List Char))
  | [] => some place
  | c :: cs =>
    if d.isDirectory place.reverse then
      if Path.isSilent c then d.walk place cs
      else if c = ['.', '.'] then
        match place with
        | [] => none
        | _ :: above => d.walk above cs
      else d.walk (c :: place) cs
    else none

/-- The text of the file at a path. Only relative paths are below the directory. -/
def read? (d : Directory) (p : Path) : Option String :=
  if p.chars.head? = some '/' then none
  else do
    let place ← d.walk [] (p.chars.splitOn '/')
    let entry ← d.entries.find? (·.path == place.reverse)
    return entry.text

end Directory

end FrontEnd.Files
