/-!
# Kinds of tokens

Reserved words and marks are fixed spellings. `Kind` joins them with the kinds whose
text varies: names, numbers, and the two kinds of token that only say where
something ends.
-/

namespace FrontEnd.Token

/-- A reserved word. -/
inductive Keyword
  | fnKw | pubKw | importKw | globalKw | constKw | modKw | returnKw | ifKw | elseKw | whileKw
  | breakKw | continueKw | trueKw | falseKw
  deriving DecidableEq, Repr

namespace Keyword

/-- Every reserved word. -/
def all : List Keyword :=
  [fnKw, pubKw, importKw, globalKw, constKw, modKw, returnKw, ifKw, elseKw, whileKw, breakKw,
    continueKw, trueKw, falseKw]

/-- The word as it stands in source text. -/
def spelling : Keyword → String
  | fnKw => "fn"
  | pubKw => "pub"
  | importKw => "import"
  | globalKw => "global"
  | constKw => "const"
  | modKw => "mod"
  | returnKw => "return"
  | ifKw => "if"
  | elseKw => "else"
  | whileKw => "while"
  | breakKw => "break"
  | continueKw => "continue"
  | trueKw => "true"
  | falseKw => "false"

/-- The name of the word's kind. -/
def name : Keyword → String
  | fnKw => "Fn"
  | pubKw => "Pub"
  | importKw => "Import"
  | globalKw => "Global"
  | constKw => "Const"
  | modKw => "Mod"
  | returnKw => "Return"
  | ifKw => "If"
  | elseKw => "Else"
  | whileKw => "While"
  | breakKw => "Break"
  | continueKw => "Continue"
  | trueKw => "True"
  | falseKw => "False"

/-- The reserved word that a text spells. -/
def ofText? (text : String) : Option Keyword := all.find? (·.spelling == text)

theorem mem_all (k : Keyword) : k ∈ all := by cases k <;> decide

end Keyword

/-- A mark of punctuation. -/
inductive Mark
  | openBracket | closeBracket | openCurly | closeCurly | openParen | closeParen
  | assign | equal | not | notEqual
  | less | lessEqual | greater | greaterEqual | shiftLeft | shiftRight
  | or | and | pipe | ampersand | caret
  | dot | colon | comma
  | plusAssign | minusAssign | starAssign | slashAssign | percentAssign | ampersandAssign
  | pipeAssign | caretAssign | shiftLeftAssign | shiftRightAssign
  | plus | dash | slash | star | percent
  deriving DecidableEq, Repr

namespace Mark

/-- Every mark, in the order in which they are tried: a mark stands before its own beginnings. -/
def all : List Mark :=
  [openBracket, closeBracket, openCurly, closeCurly, openParen, closeParen,
    shiftLeftAssign, shiftRightAssign, shiftLeft, shiftRight, equal, notEqual, lessEqual,
    greaterEqual, or, and, plusAssign, minusAssign, starAssign, slashAssign, percentAssign,
    ampersandAssign, pipeAssign, caretAssign, not, assign, less, greater, pipe, ampersand, caret,
    dot, colon, comma, plus, dash, slash, star, percent]

/-- The mark as it stands in source text. -/
def spelling : Mark → List Char
  | openBracket => ['[']
  | closeBracket => [']']
  | openCurly => ['{']
  | closeCurly => ['}']
  | openParen => ['(']
  | closeParen => [')']
  | assign => ['=']
  | equal => ['=', '=']
  | not => ['!']
  | notEqual => ['!', '=']
  | less => ['<']
  | lessEqual => ['<', '=']
  | greater => ['>']
  | greaterEqual => ['>', '=']
  | shiftLeft => ['<', '<']
  | shiftRight => ['>', '>']
  | or => ['|', '|']
  | and => ['&', '&']
  | pipe => ['|']
  | ampersand => ['&']
  | caret => ['^']
  | dot => ['.']
  | colon => [':']
  | comma => [',']
  | plusAssign => ['+', '=']
  | minusAssign => ['-', '=']
  | starAssign => ['*', '=']
  | slashAssign => ['/', '=']
  | percentAssign => ['%', '=']
  | ampersandAssign => ['&', '=']
  | pipeAssign => ['|', '=']
  | caretAssign => ['^', '=']
  | shiftLeftAssign => ['<', '<', '=']
  | shiftRightAssign => ['>', '>', '=']
  | plus => ['+']
  | dash => ['-']
  | slash => ['/']
  | star => ['*']
  | percent => ['%']

/-- The name of the mark's kind. -/
def name : Mark → String
  | openBracket => "OpenBracket"
  | closeBracket => "CloseBracket"
  | openCurly => "OpenCurly"
  | closeCurly => "CloseCurly"
  | openParen => "OpenParen"
  | closeParen => "CloseParen"
  | assign => "Assignment"
  | equal => "Equals"
  | not => "Not"
  | notEqual => "NotEquals"
  | less => "Less"
  | lessEqual => "LessEquals"
  | greater => "Greater"
  | greaterEqual => "GreaterEquals"
  | shiftLeft => "ShiftLeft"
  | shiftRight => "ShiftRight"
  | or => "Or"
  | and => "And"
  | pipe => "Pipe"
  | ampersand => "Ampersand"
  | caret => "Caret"
  | dot => "Dot"
  | colon => "Colon"
  | comma => "Comma"
  | plusAssign => "PlusEquals"
  | minusAssign => "MinusEquals"
  | starAssign => "StarEquals"
  | slashAssign => "SlashEquals"
  | percentAssign => "PercentEquals"
  | ampersandAssign => "AmpersandEquals"
  | pipeAssign => "PipeEquals"
  | caretAssign => "CaretEquals"
  | shiftLeftAssign => "ShiftLeftEquals"
  | shiftRightAssign => "ShiftRightEquals"
  | plus => "Plus"
  | dash => "Dash"
  | slash => "Slash"
  | star => "Star"
  | percent => "Percent"

theorem mem_all (m : Mark) : m ∈ all := by cases m <;> decide

theorem spelling_ne_nil (m : Mark) : m.spelling ≠ [] := by cases m <;> simp [spelling]

end Mark

/-- What sort of token stands at a place. -/
inductive Kind
  | endOfFile
  /-- Ends a statement. -/
  | terminator
  | integer
  | float
  | identifier
  | keyword (k : Keyword)
  | mark (m : Mark)
  deriving DecidableEq, Repr

namespace Kind

/-- The name that messages show for a kind. -/
def name : Kind → String
  | endOfFile => "EOF"
  | terminator => "End"
  | integer => "Integer"
  | float => "Float"
  | identifier => "Identifier"
  | keyword k => k.name
  | mark m => m.name

end Kind

end FrontEnd.Token
