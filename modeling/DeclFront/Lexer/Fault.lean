import DeclFront.Diagnostic
import DeclFront.Text.Quoted
import DeclFront.Text.Split

/-! What can be wrong with a lexeme, said without positions, and the result of scanning one. -/

namespace DeclFront

inductive NumberFault
  | emptyExponent
  | longFloat
  | trailing
  | strayUnderscore
deriving DecidableEq, Repr

def NumberFault.reason : NumberFault → String
  | emptyExponent => "exponent has no digits"
  | longFloat => "'L' suffix on a floating-point literal"
  | trailing => "unexpected characters after the number"
  | strayUnderscore => "'_' must sit between digits"

inductive LexicalFault
  | unexpected (c : Char)
  | openComment
  | number (why : NumberFault)
  | openString
  | openChar
  | emptyChar
  | crowdedChar
  /-- An escape of `c` that has no meaning, with the bytes of the lexeme before it. -/
  | unknownEscape (c : Char) (before : Nat)
deriving DecidableEq, Repr

namespace LexicalFault

def message (lexeme : List Char) : LexicalFault → String
  | unexpected c => "Unexpected character '" ++ escapeChar .both c ++ "'"
  | openComment => "Unterminated block comment"
  | number why => "Invalid numeric literal '" ++ String.ofList lexeme ++ "': " ++ why.reason
  | openString => "Unterminated string literal"
  | openChar => "Unterminated character literal"
  | emptyChar => "Empty character literal"
  | crowdedChar =>
    "Character literal '" ++ String.ofList lexeme ++ "' holds more than one character"
  | unknownEscape c _ => "Unknown escape sequence '\\" ++ escapeChar .both c ++ "'"

def hints : LexicalFault → List String
  | openComment => ["Close the comment with '*/'"]
  | openString => ["String literals cannot span lines; close it with '\"'"]
  | crowdedChar => ["Use double quotes for a string literal"]
  | _ => []

/-- The faulty part of a lexeme that starts at an offset: all of it, or the unknown escape. -/
def span (start : Nat) (lexeme : List Char) : LexicalFault → Span
  | unknownEscape c before => ⟨start + before, start + before + (1 + c.utf8Size)⟩
  | _ => ⟨start, start + width lexeme⟩

def toDiagnostic (start : Nat) (lexeme : List Char) (f : LexicalFault) : Diagnostic :=
  ⟨.lexical, f.message lexeme, f.span start lexeme, [], f.hints⟩

end LexicalFault

/-- A lexeme, what follows it, and the kind of token it is or what is wrong with it. -/
structure Scanned extends Split where
  outcome : Except LexicalFault TokenKind

namespace Scanned

/-- The token or diagnostic of a lexeme that starts at an offset. -/
def placed (start : Nat) (s : Scanned) : Except Diagnostic Token :=
  match s.outcome with
  | .ok kind => .ok ⟨kind, String.ofList s.taken, ⟨start, start + width s.taken⟩⟩
  | .error fault => .error (fault.toDiagnostic start s.taken)

end Scanned

namespace Split

def accept (kind : TokenKind) (s : Split) : Scanned := ⟨s, .ok kind⟩

def reject (fault : LexicalFault) (s : Split) : Scanned := ⟨s, .error fault⟩

end Split

end DeclFront
