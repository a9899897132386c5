/-!
# Positions in source text

Offsets count the bytes of the UTF-8 form of a source, so that a position is
independent of how a viewer counts characters.
-/

namespace FrontEnd.Text

/-- A byte offset into a file, with the name that diagnostics show for the file. -/
structure Position where
  offset : Nat
  file : String
  deriving DecidableEq, Repr, Inhabited

/-- The position of a request that no source text makes. -/
def Position.null : Position := ⟨0, "<null>"⟩

/-- A stretch of source text, from the byte at `start` up to but not including `stop`. -/
structure Span where
  start : Nat
  stop : Nat
  deriving DecidableEq, Repr, Inhabited

/-- The number of bytes that a run of characters takes up in UTF-8. -/
def byteLength (cs : List Char) : Nat := cs.foldl (fun n c => n + c.utf8Size) 0

@[simp]
theorem byteLength_nil : byteLength [] = 0 := rfl

theorem foldl_utf8Size (cs : List Char) (n m : Nat) :
    cs.foldl (fun n c => n + c.utf8Size) (n + m) = n + cs.foldl (fun n c => n + c.utf8Size) m := by
  induction cs generalizing m with
  | nil => rfl
  | cons c cs ih => rw [List.foldl_cons, Nat.add_assoc, ih, List.foldl_cons]

@[simp]
theorem byteLength_cons (c : Char) (cs : List Char) :
    byteLength (c :: cs) = c.utf8Size + byteLength cs := by
  have h := foldl_utf8Size cs c.utf8Size 0
  simpa [byteLength] using h

@[simp]
theorem byteLength_append (xs ys : List Char) :
    byteLength (xs ++ ys) = byteLength xs + byteLength ys := by
  induction xs with
  | nil => simp
  | cons c cs ih => simp [ih, Nat.add_assoc]

end FrontEnd.Text
