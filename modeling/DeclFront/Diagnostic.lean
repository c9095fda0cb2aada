import DeclFront.Token

/-! Diagnostics: what went wrong, where, and what a reader may do about it. A diagnostic is plain
data; the stages return it and only the command line prints it. -/

namespace DeclFront

inductive Cause
  | general
  | lexical
  | syntactic
  | illegalToken (token : Token) (expected : String)
  | semantic
  | internal
deriving DecidableEq, Repr

structure Diagnostic where
  cause : Cause
  message : String
  span : Span
  notes : List String
  hints : List String
deriving DecidableEq, Repr

namespace Cause

/-- The stable code of the cause. -/
def code : Cause → String
  | general => "kestrel::error"
  | lexical => "kestrel::lexical"
  | syntactic => "kestrel::syntax"
  | illegalToken _ _ => "kestrel::illegal_token"
  | semantic => "kestrel::semantic"
  | internal => "kestrel::internal"

/-- The words that open a rendered diagnostic. -/
def title : Cause → String
  | general => "error"
  | lexical => "lexical error"
  | syntactic | illegalToken _ _ => "syntax error"
  | semantic => "semantic error"
  | internal => "internal error"

end Cause

namespace Diagnostic

def ofCause (cause : Cause) (message : String) (span : Span) : Diagnostic :=
  ⟨cause, message, span, [], []⟩

def lexical (message : String) (span : Span) : Diagnostic := ofCause .lexical message span

def syntactic (message : String) (span : Span) : Diagnostic := ofCause .syntactic message span

def semantic (message : String) (span : Span) : Diagnostic := ofCause .semantic message span

def withNote (note : String) (d : Diagnostic) : Diagnostic := { d with notes := d.notes ++ [note] }

def withHint (hint : String) (d : Diagnostic) : Diagnostic := { d with hints := d.hints ++ [hint] }

/-- The token is none of those that the grammar takes here. It is kept as it was met. -/
def illegalToken (token : Token) (expected : String) : Diagnostic :=
  ofCause (.illegalToken token expected)
    ("Expected " ++ expected ++ ", found " ++ token.describe) token.span

/-- The diagnostic of a step that failed. -/
def of? {α : Type} : Except Diagnostic α → Option Diagnostic
  | .ok _ => none
  | .error d => some d

/-- Steps without diagnostics all succeeded. -/
theorem exists_map_ok {α : Type} {rs : List (Except Diagnostic α)} (h : ∀ r ∈ rs, of? r = none) :
    ∃ as : List α, rs = as.map .ok := by
  induction rs with
  | nil => exact ⟨[], rfl⟩
  | cons r rs ih =>
    obtain ⟨as, rfl⟩ := ih (fun r hr => h r (List.mem_cons_of_mem _ hr))
    cases r with
    | error d => exact absurd (h _ List.mem_cons_self) (by simp [of?])
    | ok a => exact ⟨a :: as, rfl⟩

def isLexical (d : Diagnostic) : Bool := d.cause == .lexical

def shift (offset : Nat) (d : Diagnostic) : Diagnostic := { d with span := d.span.shift offset }

/-- All notes, then all hints, a line each; nothing if there are neither. -/
def help? (d : Diagnostic) : Option String :=
  if d.notes.isEmpty && d.hints.isEmpty then none
  else some ("\n".intercalate (d.notes.map ("note: " ++ ·) ++ d.hints))

/-- What stands beside the underlined part: the expectation, for an illegal token. -/
def label? (d : Diagnostic) : Option String :=
  match d.cause with
  | .illegalToken _ expected => some ("expected " ++ expected)
  | _ => none

/-! ### Catalogue -/

def unexpectedEnd (expected : String) (offset : Nat) : Diagnostic :=
  syntactic ("Unexpected end of input, expected " ++ expected) (.point offset)

def literalOutOfRange (text type : String) (span : Span) : Diagnostic :=
  (semantic ("Literal " ++ text ++ " is out of range for type '" ++ type ++ "'") span).withHint
    (if type == "int" then "Add an 'L' suffix to make it a long literal" else "Use a smaller value")

def malformedChar (span : Span) : Diagnostic := lexical "Malformed character literal" span

def malformedString (span : Span) : Diagnostic := lexical "Malformed string literal" span

def misplacedClause (token : Token) : Diagnostic :=
  syntactic ("'" ++ token.text ++ "' must come before any member declaration") token.span

def alreadyRestarted (span : Span) : Diagnostic :=
  ofCause .internal "Token stream has already been restarted once" span

def strayInterrupt : Diagnostic :=
  ofCause .internal "Parser interrupted without an interrupt source" (.point 0)

def firstDeclaredAt (previous : Span) : String :=
  "previously declared at byte " ++ toString previous.start

def duplicateField (name : String) (span previous : Span) : Diagnostic :=
  (semantic ("Duplicate field '" ++ name ++ "'") span).withNote (firstDeclaredAt previous)

def duplicateMethod (signature : String) (span previous : Span) : Diagnostic :=
  ((semantic ("Duplicate method '" ++ signature ++ "'") span).withNote
    (firstDeclaredAt previous)).withHint
      "Methods are distinguished by name and erased parameter types"

def duplicateParameter (name : String) (span : Span) : Diagnostic :=
  semantic ("Duplicate parameter '" ++ name ++ "'") span

def repeatedModifier (m : Modifier) (span : Span) : Diagnostic :=
  (semantic ("Repeated modifier '" ++ m.spelling ++ "'") span).withHint "Remove the duplicate"

def conflictingAccess (first second : Modifier) (span : Span) : Diagnostic :=
  (semantic ("Conflicting access modifiers '" ++ first.spelling ++ "' and '" ++ second.spelling ++
    "'") span).withHint "A member can have at most one of public, protected, private"

def initializerMismatch (literal type : String) (span : Span) : Diagnostic :=
  semantic ("Cannot initialize '" ++ type ++ "' with " ++ literal) span

end Diagnostic

end DeclFront
