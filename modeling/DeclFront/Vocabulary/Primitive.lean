/-! The eight primitive types: a closed set, each spelled by one reserved word. -/

namespace DeclFront

inductive Primitive
  | boolean
  | byte
  | short
  | char
  | int
  | long
  | float
  | double
deriving DecidableEq, Repr, Inhabited

namespace Primitive

/-- Every primitive type, in the order of the language's own list. -/
def all : List Primitive := [boolean, byte, short, char, int, long, float, double]

def spelling : Primitive → String
  | boolean => "boolean"
  | byte => "byte"
  | short => "short"
  | char => "char"
  | int => "int"
  | long => "long"
  | float => "float"
  | double => "double"

/-- The name under which dumps and tables show the type. -/
def label : Primitive → String
  | boolean => "Boolean"
  | byte => "Byte"
  | short => "Short"
  | char => "Char"
  | int => "Int"
  | long => "Long"
  | float => "Float"
  | double => "Double"

theorem mem_all (p : Primitive) : p ∈ all := by cases p <;> decide

end Primitive

end DeclFront
