import DeclFront.Source.Span
import DeclFront.Vocabulary.Keyword

/-! Names and types as they stand in the tree. -/

namespace DeclFront

/-- A dotted name; the parser builds only names with at least one segment. -/
structure Name where
  segments : List String
deriving DecidableEq, Repr

namespace Name

def text (n : Name) : String := ".".intercalate n.segments

def simple (n : Name) : String := n.segments.getLastD ""

end Name

mutual

/-- A type. An array holds the span of its element. -/
inductive TypeNode
  | primitive (p : Primitive)
  | reference (name : Name)
  | parameterized (raw : Name) (args : List TypeArg)
  | array (element : TypeNode) (span : Span)

/-- A type argument with its span: a type, a free wildcard, or a wildcard bounded by a type, which
has a span of its own. -/
inductive TypeArg
  | type (t : TypeNode) (span : Span)
  | wildcard (span : Span)
  | bounded (b : Bound) (t : TypeNode) (boundSpan span : Span)

end

mutual

/-- The type as it is written, with one space behind commas and around a wildcard's bound. -/
def TypeNode.text : TypeNode → String
  | .primitive p => p.spelling
  | .reference n => n.text
  | .parameterized raw args => raw.text ++ "<" ++ TypeArg.listText args ++ ">"
  | .array element _ => element.text ++ "[]"

def TypeArg.text : TypeArg → String
  | .type t _ => t.text
  | .wildcard _ => "?"
  | .bounded b t _ _ => "? " ++ b.spelling ++ " " ++ t.text

def TypeArg.listText : List TypeArg → String
  | [] => ""
  | [a] => a.text
  | a :: rest => a.text ++ ", " ++ TypeArg.listText rest

end

mutual

/-- The same type with every span at the start of the text. -/
def TypeNode.unplaced : TypeNode → TypeNode
  | .primitive p => .primitive p
  | .reference n => .reference n
  | .parameterized raw args => .parameterized raw (TypeArg.unplacedList args)
  | .array element _ => .array element.unplaced default

def TypeArg.unplaced : TypeArg → TypeArg
  | .type t _ => .type t.unplaced default
  | .wildcard _ => .wildcard default
  | .bounded b t _ _ => .bounded b t.unplaced default default

def TypeArg.unplacedList : List TypeArg → List TypeArg
  | [] => []
  | a :: rest => a.unplaced :: TypeArg.unplacedList rest

end

def TypeArg.span : TypeArg → Span
  | .type _ s | .wildcard s | .bounded _ _ _ s => s

namespace TypeNode

def production : TypeNode → String
  | primitive _ => "primitive type"
  | reference _ => "reference type"
  | parameterized _ _ => "parameterized type"
  | array _ _ => "array type"

def isPrimitive : TypeNode → Bool
  | primitive _ => true
  | _ => false

/-- Arrays are reference types, whatever their element. -/
def isReference (t : TypeNode) : Bool := !t.isPrimitive

def depth : TypeNode → Nat
  | array element _ => element.depth + 1
  | _ => 0

def element : TypeNode → TypeNode
  | array e _ => e.element
  | t => t

def erasure : TypeNode → TypeNode
  | primitive p => primitive p
  | reference n => reference n
  | parameterized raw _ => reference raw
  | array e s => array e.erasure s

end TypeNode

end DeclFront
