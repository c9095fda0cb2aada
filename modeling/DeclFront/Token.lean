import DeclFront.Source.Span
import DeclFront.Vocabulary.Keyword
import DeclFront.Vocabulary.Punctuation

/-! Tokens: a kind, the exact spelling and the span. The kind carries no values;
a literal's value is read from the spelling when it is needed. -/

namespace DeclFront

inductive TokenKind
  | keyword (k : Keyword)
  | punct (p : Punctuation)
  | ident
  | intLit
  | floatLit
  | charLit
  | stringLit
  | eof
deriving DecidableEq, Repr

namespace TokenKind

/-- The kind as it stands in "expected this, found that". -/
def describe : TokenKind → String
  | keyword k => "keyword '" ++ k.spelling ++ "'"
  | punct p => "'" ++ p.spelling ++ "'"
  | ident => "identifier"
  | intLit => "integer literal"
  | floatLit => "floating-point literal"
  | charLit => "character literal"
  | stringLit => "string literal"
  | eof => "end of file"

/-- Tokens of these kinds differ in their spelling. -/
def isOpen : TokenKind → Bool
  | ident | intLit | floatLit | charLit | stringLit => true
  | keyword _ | punct _ | eof => false

def primitive? : TokenKind → Option Primitive
  | keyword k => k.primitive?
  | _ => none

def modifier? : TokenKind → Option Modifier
  | keyword k => k.modifier?
  | _ => none

/-- A type begins with a primitive type's word or with a name. -/
def startsType (k : TokenKind) : Bool := k == ident || k.primitive?.isSome

end TokenKind

structure Token where
  kind : TokenKind
  text : String
  span : Span
deriving DecidableEq, Repr

namespace Token

/-- The mark of the end of the text. -/
def endAt (offset : Nat) : Token := ⟨.eof, "", .point offset⟩

def isEnd (t : Token) : Bool := t.kind == .eof

def isPunct (p : Punctuation) (t : Token) : Bool := t.kind == .punct p

def describe (t : Token) : String :=
  if t.kind.isOpen then t.kind.describe ++ " '" ++ t.text ++ "'" else t.kind.describe

def shift (offset : Nat) (t : Token) : Token := { t with span := t.span.shift offset }

end Token

/-- A closed set of things that single tokens stand for. -/
class TokenSet (α : Type) where
  /-- What a token outside the set was expected to be. -/
  expected : String
  members : List α
  kindOf : α → TokenKind

namespace TokenSet

instance : TokenSet Primitive := ⟨"primitive type", Primitive.all, fun p => .keyword (.primitive p)⟩

instance : TokenSet Modifier := ⟨"modifier", Modifier.all, fun m => .keyword (.modifier m)⟩

/-- The member that a kind stands for. -/
def find? (α : Type) [TokenSet α] (k : TokenKind) : Option α :=
  (members : List α).find? (fun a => kindOf a == k)

def accepts (α : Type) [TokenSet α] (k : TokenKind) : Bool :=
  (members : List α).any (fun a => kindOf a == k)

/-- No two members share a kind. -/
def isInjective (α : Type) [TokenSet α] : Bool :=
  decide ((members : List α).map kindOf).Nodup

end TokenSet

end DeclFront
