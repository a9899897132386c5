import FrontEnd.Token.Kind
import FrontEnd.Token.Numeral

/-!
# Lexical patterns

What a source is cut into. A `Pattern` says how many characters it takes at the start
of a text; `Pattern.table` lists the patterns in the order in which they are tried,
and the first that takes anything wins. `lexemes` cuts a whole text.
-/

namespace FrontEnd.Token

/-- A letter that a name may start with. Names are ASCII. -/
def isNameStart (c : Char) : Bool := 'a' ≤ c && c ≤ 'z' || 'A' ≤ c && c ≤ 'Z' || c == '_'

/-- A character that a name may go on with. -/
def isNamePart (c : Char) : Bool := isNameStart c || isDecimal c

/-- A blank between tokens. A line feed is none, since it may end a statement. -/
def isSpace (c : Char) : Bool := c == ' ' || c == '\t' || c == '\r'

/-- A character that ends a statement. -/
def isTerminator (c : Char) : Bool := c == '\n' || c == ';'

/-- How far a dotted name reaches, of which `seen` characters have been read. A dot belongs to it
only before the start of a further name. -/
def nameLength (seen : Nat) : List Char → Nat
  | [] => seen
  | c :: cs =>
    if isNamePart c then nameLength (seen + 1) cs
    else if c == '.' && (cs.head?.map isNameStart).getD false then nameLength (seen + 1) cs
    else seen

/-- A name never shrinks. -/
theorem le_nameLength (seen : Nat) (cs : List Char) : seen ≤ nameLength seen cs := by
  induction cs generalizing seen with
  | nil => exact Nat.le_refl seen
  | cons c cs ih =>
    have h := ih (seen + 1)
    unfold nameLength
    repeat' split
    all_goals omega

/-- How far a block comment reaches, of which `seen` characters have been read. It ends with the
first end mark. -/
def commentLength? (seen : Nat) : List Char → Option Nat
  | [] => none
  | c :: cs =>
    if c == '*' && cs.head? == some '/' then some (seen + 2) else commentLength? (seen + 1) cs

/-- A block comment is longer than what has been read of it. -/
theorem lt_commentLength? {seen n : Nat} {cs : List Char} (h : commentLength? seen cs = some n) :
    seen < n := by
  induction cs generalizing seen with
  | nil => cases h
  | cons c cs ih =>
    unfold commentLength? at h
    split at h
    · cases h; omega
    · have := ih h; omega

/-- One form that the digits of a number may take. -/
inductive Digits
  | binary | hexadecimal | fraction | bareFraction | whole
  deriving DecidableEq, Repr

namespace Digits

/-- The forms in the order in which they are tried. -/
def all : List Digits := [binary, hexadecimal, fraction, bareFraction, whole]

/-- How many digits of a class a text starts with, if any. -/
def run? (p : Char → Bool) (text : List Char) : Option Nat :=
  match (text.takeWhile p).length with
  | 0 => none
  | n => some n

/-- How many characters at the start of a text have the form. -/
def length? : Digits → List Char → Option Nat
  | binary, '0' :: 'b' :: rest => (run? isBit rest).map (2 + ·)
  | hexadecimal, '0' :: 'x' :: rest => (run? isHex rest).map (2 + ·)
  | fraction, text => do
    let n ← run? isDecimal text
    match text.drop n with
    | '.' :: rest => some (n + 1 + (rest.takeWhile isDecimal).length)
    | _ => none
  | bareFraction, '.' :: rest => (run? isDecimal rest).map (1 + ·)
  | whole, text => run? isDecimal text
  | _, _ => none

/-- A run of digits is not empty. -/
theorem run?_pos {p : Char → Bool} {text : List Char} {n : Nat}
    (h : run? p text = some n) : 0 < n := by
  unfold run? at h
  split at h
  · cases h
  · next hn => cases h; exact Nat.pos_of_ne_zero hn

/-- No form of a number is empty. -/
theorem length?_pos {d : Digits} {text : List Char} {n : Nat}
    (h : d.length? text = some n) : 0 < n := by
  unfold length? at h
  split at h
  · obtain ⟨m, _, rfl⟩ := Option.map_eq_some_iff.1 h; omega
  · obtain ⟨m, _, rfl⟩ := Option.map_eq_some_iff.1 h; omega
  · obtain ⟨m, _, h⟩ := Option.bind_eq_some_iff.1 h
    split at h
    · cases h; omega
    · cases h
  · obtain ⟨m, _, rfl⟩ := Option.map_eq_some_iff.1 h; omega
  · exact run?_pos h
  · cases h

end Digits

/-- What a source is cut into. -/
inductive Pattern
  | name
  | number
  | space
  | lineComment
  | blockComment
  | terminator
  | mark (m : Mark)
  deriving DecidableEq, Repr

namespace Pattern

/-- All patterns, in the order in which they are tried. -/
def table : List Pattern :=
  [name, number, space, lineComment, blockComment, terminator] ++ Mark.all.map mark

/-- How many characters the pattern takes at the start of a text. -/
def length? : Pattern → List Char → Option Nat
  | name, c :: cs => if isNameStart c then some (nameLength 1 cs) else none
  | number, text => do
    let n ← Digits.all.findSome? (·.length? text)
    some (n + (Suffix.atStart (text.drop n)).spelling.length)
  | space, text => Digits.run? isSpace text
  | lineComment, '/' :: '/' :: rest => some (2 + (rest.takeWhile (· != '\n')).length)
  | blockComment, '/' :: '*' :: rest => commentLength? 2 rest
  | terminator, c :: _ => if isTerminator c then some 1 else none
  | mark m, text => if m.spelling.isPrefixOf text then some m.spelling.length else none
  | _, _ => none

/-- A pattern takes at least one character, or nothing. -/
theorem length?_pos {p : Pattern} {text : List Char} {n : Nat}
    (h : p.length? text = some n) : 0 < n := by
  unfold length? at h
  split at h
  · next c cs =>
    split at h
    · have := le_nameLength 1 cs
      cases h; omega
    · cases h
  · obtain ⟨m, hm, h⟩ := Option.bind_eq_some_iff.1 h
    obtain ⟨d, _, hd⟩ := List.exists_of_findSome?_eq_some hm
    have := Digits.length?_pos hd
    cases h; omega
  · exact Digits.run?_pos h
  · cases h; omega
  · have := lt_commentLength? h; omega
  · split at h
    · cases h; omega
    · cases h
  · next m =>
    split at h
    · cases h; exact List.length_pos_iff.2 m.spelling_ne_nil
    · cases h
  · cases h

/-- The first pattern that takes something at the start of a text, and how much it takes. -/
def first? (text : List Char) : Option (Pattern × Nat) :=
  table.findSome? fun p => (p.length? text).map (p, ·)

/-- What the first pattern takes is not empty. -/
theorem first?_pos {text : List Char} {p : Pattern} {n : Nat}
    (h : first? text = some (p, n)) : 0 < n := by
  obtain ⟨q, _, hq⟩ := List.exists_of_findSome?_eq_some h
  obtain ⟨m, hm, he⟩ := Option.map_eq_some_iff.1 hq
  cases he
  exact length?_pos hm

end Pattern

/-- A piece of source text with the pattern that took it. -/
structure Lexeme where
  pattern : Pattern
  text : List Char
  deriving DecidableEq, Repr

/-- Cuts a text after `skip` characters that belong to the lexeme before. `done` holds the lexemes so
far, the last one first. The second component is the text at which no pattern takes anything. -/
def lexemesFrom (done : List Lexeme) : Nat → List Char → List Lexeme × List Char
  | _, [] => (done.reverse, [])
  | skip + 1, _ :: cs => lexemesFrom done skip cs
  | 0, c :: cs =>
    match Pattern.first? (c :: cs) with
    | none => (done.reverse, c :: cs)
    | some (p, n) => lexemesFrom (⟨p, (c :: cs).take n⟩ :: done) (n - 1) cs

/-- The lexemes of a text, and what is left where no pattern takes anything. -/
def lexemes (text : List Char) : List Lexeme × List Char := lexemesFrom [] 0 text

/-- Up to the characters that are skipped, no character is lost. -/
theorem flatMap_lexemesFrom (done : List Lexeme) (skip : Nat) (cs : List Char) :
    (lexemesFrom done skip cs).1.flatMap Lexeme.text ++ (lexemesFrom done skip cs).2 =
      done.reverse.flatMap Lexeme.text ++ cs.drop skip := by
  induction cs generalizing done skip with
  | nil => simp [lexemesFrom]
  | cons c cs ih =>
    cases skip with
    | succ skip => simpa [lexemesFrom] using ih done skip
    | zero =>
      unfold lexemesFrom
      split
      · simp
      · next p n h =>
        obtain ⟨m, rfl⟩ := Nat.exists_eq_succ_of_ne_zero (Nat.ne_of_gt (Pattern.first?_pos h))
        rw [ih]
        simp [List.append_assoc]

/-- Lexemes and what is left make up the text. -/
theorem flatMap_lexemes (text : List Char) :
    (lexemes text).1.flatMap Lexeme.text ++ (lexemes text).2 = text := by
  simpa [lexemes] using flatMap_lexemesFrom [] 0 text

end FrontEnd.Token
