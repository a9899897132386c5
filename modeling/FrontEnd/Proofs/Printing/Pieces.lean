import FrontEnd.Configuration
import FrontEnd.Token.Scan

/-!
# Pieces of canonical text

Canonical source text is made of pieces, one for each token. `layout` puts one blank
between two pieces, except where the text is usually written without: after an opening
parenthesis and before a closing one, before a comma and a colon, between a name and what
is bound to it, and at both ends of a line. No line is empty.
-/

namespace FrontEnd.Printing

open Token (Keyword Mark Suffix Shape Pattern Lexeme)

/-- What one token is written as. -/
inductive Piece
  | name (path : List String)
  | keyword (k : Keyword)
  | mark (m : Mark)
  | number (value : Nat) (suffix : Suffix)
  | lineEnd
  deriving DecidableEq, Repr

/-- A path that a name can stand for. A single segment must not be a reserved word. -/
def isPath : List String → Bool
  | [] => false
  | [s] => isModuleName s.toList && (Keyword.ofText? s).isNone
  | path => path.all (isModuleName ·.toList)

namespace Piece

/-- The piece as it stands in source text. -/
def text : Piece → List Char
  | name path => (joinDots path).toList
  | keyword k => k.spelling.toList
  | mark m => m.spelling
  | number value suffix => (toString value).toList ++ suffix.spelling
  | lineEnd => ['\n']

/-- What the token of the piece stands for. -/
def shape : Piece → Shape
  | name path => .identifier path
  | keyword k => .keyword k
  | mark m => .mark m
  | number value suffix => .numeral ⟨.int value, suffix⟩
  | lineEnd => .terminator

/-- The pattern that takes the piece. -/
def pattern : Piece → Pattern
  | name _ | keyword _ => .name
  | mark m => .mark m
  | number _ _ => .number
  | lineEnd => .terminator

/-- The piece as it is cut from source text. -/
def lexeme (p : Piece) : Lexeme := ⟨p.pattern, p.text⟩

/-- Whether some text stands for the piece. -/
def isWritable : Piece → Bool
  | name path => isPath path
  | number value suffix => value < Token.integerBound && !suffix.isFloat
  | _ => true

/-- A piece that the next one follows at once. -/
def isLeading : Piece → Bool
  | mark .openParen | mark .openBracket | lineEnd => true
  | _ => false

/-- A piece that follows the one before at once. -/
def isTrailing : Piece → Bool
  | mark .closeParen | mark .closeBracket | mark .comma | mark .colon | lineEnd => true
  | _ => false

/-- A piece that is bound to the piece before it: the arguments of a name, or a selection. -/
def isBound : Piece → Piece → Bool
  | name _, mark .openParen | name _, mark .dot | mark .dot, mark .openBracket => true
  | _, _ => false

/-- Whether no blank stands between two pieces. -/
def joins (p q : Piece) : Bool := p.isLeading || q.isTrailing || isBound p q

end Piece

/-- The blank between two pieces. -/
def blank : Lexeme := ⟨.space, [' ']⟩

/-- What stands between a piece and the next one, if there is one. -/
def gap (p : Piece) : Option Piece → List Lexeme
  | none => []
  | some q => if p.joins q then [] else [blank]

/-- Pieces with the blanks between them. -/
def layout : List Piece → List Lexeme
  | [] => []
  | p :: rest => p.lexeme :: (gap p rest.head? ++ layout rest)

/-- The text of lexemes. -/
def textOf (ls : List Lexeme) : List Char := ls.flatMap Lexeme.text

/-- The text that pieces stand for. -/
def write (ps : List Piece) : String := String.ofList (textOf (layout ps))

/-- Whether a line is still empty after some pieces, if it was so before them. There is no answer if
a piece cannot be written, or if it ends an empty line. -/
def lineAfter (fresh : Bool) : List Piece → Option Bool
  | [] => some fresh
  | p :: rest =>
    if p.isWritable && !(fresh && p = .lineEnd) then lineAfter (p = .lineEnd) rest else none

@[simp]
theorem lineAfter_nil (fresh : Bool) : lineAfter fresh [] = some fresh := rfl

@[simp]
theorem lineAfter_append (fresh : Bool) (ps qs : List Piece) :
    lineAfter fresh (ps ++ qs) = (lineAfter fresh ps).bind fun fresh => lineAfter fresh qs := by
  induction ps generalizing fresh with
  | nil => rfl
  | cons p rest ih =>
    rw [List.cons_append, lineAfter, lineAfter]
    split
    · exact ih _
    · rfl

/-- A piece that does not end a line may stand anywhere. -/
theorem lineAfter_cons {p : Piece} (hp : p.isWritable = true) (hline : p ≠ .lineEnd) (fresh : Bool)
    (rest : List Piece) : lineAfter fresh (p :: rest) = lineAfter false rest := by
  simp [lineAfter, hp, hline]

@[simp]
theorem lineAfter_keyword (fresh : Bool) (k : Keyword) (rest : List Piece) :
    lineAfter fresh (.keyword k :: rest) = lineAfter false rest :=
  lineAfter_cons (p := .keyword k) rfl nofun fresh rest

@[simp]
theorem lineAfter_mark (fresh : Bool) (m : Mark) (rest : List Piece) :
    lineAfter fresh (.mark m :: rest) = lineAfter false rest :=
  lineAfter_cons (p := .mark m) rfl nofun fresh rest

theorem lineAfter_name {path : List String} (h : isPath path = true) (fresh : Bool)
    (rest : List Piece) : lineAfter fresh (.name path :: rest) = lineAfter false rest :=
  lineAfter_cons (p := .name path) h nofun fresh rest

@[simp]
theorem lineAfter_lineEnd (rest : List Piece) :
    lineAfter false (.lineEnd :: rest) = lineAfter true rest := rfl

/-- The first piece can be written, and the others follow it. -/
theorem lineAfter_cons_eq_some {p : Piece} {rest : List Piece} {fresh fresh' : Bool}
    (h : lineAfter fresh (p :: rest) = some fresh') :
    p.isWritable = true ∧ (fresh = true → p ≠ .lineEnd) ∧
      lineAfter (p = .lineEnd) rest = some fresh' := by
  rw [lineAfter] at h
  split at h
  · next hp =>
    rw [Bool.and_eq_true] at hp
    refine ⟨hp.1, ?_, h⟩
    rintro rfl rfl
    exact absurd hp.2 (by decide)
  · cases h

theorem isWritable_of_lineAfter {ps : List Piece} {fresh fresh' : Bool}
    (h : lineAfter fresh ps = some fresh') : ∀ p ∈ ps, p.isWritable = true := by
  induction ps generalizing fresh with
  | nil => exact List.forall_mem_nil _
  | cons p rest ih =>
    obtain ⟨hp, -, hrest⟩ := lineAfter_cons_eq_some h
    exact List.forall_mem_cons.mpr ⟨hp, ih hrest⟩

theorem textOf_cons (l : Lexeme) (ls : List Lexeme) : textOf (l :: ls) = l.text ++ textOf ls := rfl

theorem textOf_append (ls ls' : List Lexeme) : textOf (ls ++ ls') = textOf ls ++ textOf ls' :=
  List.flatMap_append

end FrontEnd.Printing
