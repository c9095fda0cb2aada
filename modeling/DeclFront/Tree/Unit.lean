import DeclFront.Tree.Literal
import DeclFront.Tree.TypeNode

/-! The tree of one source: an optional package, imports, and members. -/

namespace DeclFront

structure Import where
  path : Name
  wildcard : Bool
deriving DecidableEq, Repr

inductive ReturnType
  | void
  | type (t : TypeNode)

structure Param where
  isFinal : Bool
  type : Spanned TypeNode
  name : Spanned String

structure Field where
  modifiers : List (Spanned Modifier)
  type : Spanned TypeNode
  name : Spanned String
  init : Option (Spanned Literal)

structure Method where
  modifiers : List (Spanned Modifier)
  returns : Spanned ReturnType
  name : Spanned String
  params : List (Spanned Param)

inductive Member
  | field (f : Field)
  | method (m : Method)

structure CompilationUnit where
  package : Option (Spanned Name)
  imports : List (Spanned Import)
  members : List (Spanned Member)

namespace CompilationUnit

def empty : CompilationUnit := ⟨none, [], []⟩

def withPackage (u : CompilationUnit) (name : Spanned Name) : CompilationUnit :=
  { u with package := some name }

def withImport (u : CompilationUnit) (i : Spanned Import) : CompilationUnit :=
  { u with imports := u.imports ++ [i] }

def withMember (u : CompilationUnit) (m : Spanned Member) : CompilationUnit :=
  { u with members := u.members ++ [m] }

end CompilationUnit

def ReturnType.text : ReturnType → String
  | void => "void"
  | type t => t.text

/-- The name with the erased types of the parameters. Methods that share it clash. -/
def Method.signature (m : Method) : String :=
  m.name.node ++ "(" ++ ",".intercalate (m.params.map (·.node.type.node.erasure.text)) ++ ")"

namespace Member

def production : Member → String
  | field _ => "field"
  | method _ => "method"

def name : Member → Spanned String
  | field f => f.name
  | method m => m.name

def modifiers : Member → List (Spanned Modifier)
  | field f => f.modifiers
  | method m => m.modifiers

def field? : Member → Option Field
  | field f => some f
  | method _ => none

def method? : Member → Option Method
  | field _ => none
  | method m => some m

end Member

end DeclFront
