/-! Punctuation: every mark is a single character, so nested angle brackets
never have to be taken apart. -/

namespace DeclFront

inductive Punctuation
  | semicolon
  | comma
  | dot
  | leftParen
  | rightParen
  | leftBracket
  | rightBracket
  | leftAngle
  | rightAngle
  | equals
  | star
  | question
deriving DecidableEq, Repr

namespace Punctuation

/-- Every mark, in the order of the language's own list. -/
def all : List Punctuation :=
  [semicolon, comma, dot, leftParen, rightParen, leftBracket, rightBracket, leftAngle,
    rightAngle, equals, star, question]

def char : Punctuation → Char
  | semicolon => ';'
  | comma => ','
  | dot => '.'
  | leftParen => '('
  | rightParen => ')'
  | leftBracket => '['
  | rightBracket => ']'
  | leftAngle => '<'
  | rightAngle => '>'
  | equals => '='
  | star => '*'
  | question => '?'

def spelling (p : Punctuation) : String := p.char.toString

def label : Punctuation → String
  | semicolon => "Semicolon"
  | comma => "Comma"
  | dot => "Dot"
  | leftParen => "LParen"
  | rightParen => "RParen"
  | leftBracket => "LBracket"
  | rightBracket => "RBracket"
  | leftAngle => "LAngle"
  | rightAngle => "RAngle"
  | equals => "Eq"
  | star => "Star"
  | question => "Question"

def ofChar? (c : Char) : Option Punctuation := all.find? (fun p => p.char == c)

def ofSpelling? (s : String) : Option Punctuation := all.find? (fun p => p.spelling == s)

theorem ofChar?_char (p : Punctuation) : ofChar? p.char = some p := by cases p <;> rfl

theorem ofChar?_eq_some {c : Char} {p : Punctuation} (h : ofChar? c = some p) : p.char = c := by
  simpa using List.find?_some h

end Punctuation

end DeclFront
