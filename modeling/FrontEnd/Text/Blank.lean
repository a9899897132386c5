/-!
# White space

The Unicode property `White_Space`, which is wider than the blanks that separate
tokens. It decides what is cut off at the end of a line that is shown to a reader.
-/

namespace FrontEnd.Text

/-- The ranges of code points, both ends included, with the property `White_Space`. -/
def blankRanges : List (Nat × Nat) :=
  [(0x09, 0x0d), (0x20, 0x20), (0x85, 0x85), (0xa0, 0xa0), (0x1680, 0x1680), (0x2000, 0x200a),
    (0x2028, 0x2029), (0x202f, 0x202f), (0x205f, 0x205f), (0x3000, 0x3000)]

/-- White space in the sense of Unicode. -/
def isBlank (c : Char) : Bool :=
  blankRanges.any fun (first, last) => first ≤ c.toNat && c.toNat ≤ last

/-- Twenty-five code points are white space. -/
example : (blankRanges.map fun (first, last) => last + 1 - first).sum = 25 := by decide

/-- The text without the white space at its end. -/
def dropBlankEnd (cs : List Char) : List Char :=
  (cs.reverse.dropWhile isBlank).reverse

end FrontEnd.Text
