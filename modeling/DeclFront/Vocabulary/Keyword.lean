import DeclFront.Vocabulary.Primitive

/-! The reserved words, grouped by the role they play. Membership in a group is
part of the constructor, so "is this word a modifier" needs no table. -/

namespace DeclFront

/-- The words that open a clause at the head of a unit. -/
inductive Clause
  | package
  | imports
deriving DecidableEq, Repr

inductive Modifier
  | pub
  | priv
  | prot
  | static
  | final
deriving DecidableEq, Repr

/-- The words that are values by themselves. -/
inductive Constant
  | truth (b : Bool)
  | null
deriving DecidableEq, Repr

/-- A wildcard's bound: `extends` bounds from above and `super` from below. -/
inductive Bound
  | upper
  | lower
deriving DecidableEq, Repr

inductive Keyword
  | clause (c : Clause)
  | modifier (m : Modifier)
  | void
  | primitive (p : Primitive)
  | constant (c : Constant)
  | bound (b : Bound)
deriving DecidableEq, Repr

namespace Modifier

def all : List Modifier := [pub, priv, prot, static, final]

def spelling : Modifier → String
  | pub => "public"
  | priv => "private"
  | prot => "protected"
  | static => "static"
  | final => "final"

def label : Modifier → String
  | pub => "Public"
  | priv => "Private"
  | prot => "Protected"
  | static => "Static"
  | final => "Final"

/-- Access modifiers say who may see a member; a member has at most one. -/
def isAccess : Modifier → Bool
  | pub | priv | prot => true
  | static | final => false

theorem mem_all (m : Modifier) : m ∈ all := by cases m <;> decide

end Modifier

namespace Clause

def spelling : Clause → String
  | package => "package"
  | imports => "import"

def label : Clause → String
  | package => "Package"
  | imports => "Import"

end Clause

namespace Constant

def spelling : Constant → String
  | truth true => "true"
  | truth false => "false"
  | null => "null"

def label : Constant → String
  | truth true => "True"
  | truth false => "False"
  | null => "Null"

end Constant

namespace Bound

def spelling : Bound → String
  | upper => "extends"
  | lower => "super"

def label : Bound → String
  | upper => "Extends"
  | lower => "Super"

end Bound

namespace Keyword

/-- Every reserved word, in the order of the language's own list. -/
def all : List Keyword :=
  [clause .package, clause .imports] ++ Modifier.all.map modifier ++ [void] ++
    Primitive.all.map primitive ++
    [constant (.truth true), constant (.truth false), constant .null,
      bound .upper, bound .lower]

def spelling : Keyword → String
  | clause c => c.spelling
  | modifier m => m.spelling
  | void => "void"
  | primitive p => p.spelling
  | constant c => c.spelling
  | bound b => b.spelling

def label : Keyword → String
  | clause c => c.label
  | modifier m => m.label
  | void => "Void"
  | primitive p => p.label
  | constant c => c.label
  | bound b => b.label

/-- The reserved word with this spelling; case matters. -/
def ofSpelling? (s : String) : Option Keyword := all.find? (fun k => k.spelling == s)

def primitive? : Keyword → Option Primitive
  | primitive p => some p
  | _ => none

def modifier? : Keyword → Option Modifier
  | modifier m => some m
  | _ => none

theorem mem_all (k : Keyword) : k ∈ all := by
  rcases k with c | m | _ | p | c | b
  · cases c <;> decide
  · cases m <;> decide
  · decide
  · cases p <;> decide
  · rcases c with (_ | _) | _ <;> decide
  · cases b <;> decide

end Keyword

end DeclFront
