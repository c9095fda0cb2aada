import DeclFront.Grammar

/-! Semantic rules. Each rule sees the members one by one, in order, and may remember names with
the span where each was first declared. -/

namespace DeclFront

inductive Rule
  | modifiers
  | parameters
  | fields
  | methods
  | initializers
deriving DecidableEq, Repr

/-- The names met so far, each with the span of its first declaration. -/
abbrev Seen := List (String × Span)

def modifierFault? (earlier : List Modifier) : List (Spanned Modifier) → Option Diagnostic
  | [] => none
  | m :: rest =>
    if earlier.contains m.node then some (.repeatedModifier m.node m.span)
    else
      match m.node.isAccess, earlier.find? Modifier.isAccess with
      | true, some first => some (.conflictingAccess first m.node m.span)
      | _, _ => modifierFault? (m.node :: earlier) rest

def parameterFault? (earlier : List String) : List (Spanned Param) → Option Diagnostic
  | [] => none
  | p :: rest =>
    if earlier.contains p.node.name.node then
      some (.duplicateParameter p.node.name.node p.node.name.span)
    else parameterFault? (p.node.name.node :: earlier) rest

/-- An int literal fits a narrow integral type; other types take every int. -/
def fits (p : Primitive) (v : Int) : Bool :=
  match p with
  | .byte => -128 ≤ v && v ≤ 127
  | .short => -32768 ≤ v && v ≤ 32767
  | .char => 0 ≤ v && v ≤ 65535
  | _ => true

def assignablePrimitive : Primitive → Literal → Bool
  | .boolean, .bool _ => true
  | .byte, .int _ => true
  | .short, .int _ => true
  | .char, .int _ | .char, .char _ => true
  | .int, .int _ | .int, .char _ => true
  | .long, .int _ | .long, .long _ | .long, .char _ => true
  | .float, .int _ | .float, .long _ | .float, .char _ | .float, .float _ => true
  | .double, .int _ | .double, .long _ | .double, .char _ | .double, .float _
  | .double, .double _ => true
  | _, _ => false

/-- A literal may initialize a type, its value aside. -/
def assignable (t : TypeNode) (l : Literal) : Bool :=
  match t with
  | .primitive p => assignablePrimitive p l
  | .reference n =>
    match l with
    | .null => true
    | .string _ => n.simple == "String"
    | _ => false
  | _ => l == .null

/-- The literal is an int outside the range of the primitive type it initializes. -/
def misfit? (t : TypeNode) (l : Literal) : Option Primitive :=
  match t, l with
  | .primitive p, .int v => if fits p v then none else some p
  | _, _ => none

def initializerFault? (t : TypeNode) (init : Spanned Literal) : Option Diagnostic :=
  match misfit? t init.node with
  | some p => some (.literalOutOfRange init.node.text p.spelling init.span)
  | none =>
    if assignable t init.node then none
    else some (.initializerMismatch init.node.text t.text init.span)

namespace Rule

def all : List Rule := [modifiers, parameters, fields, methods, initializers]

/-- A member's fault under a rule, and the names met when the member has been seen. -/
def accept (rule : Rule) (seen : Seen) (member : Member) : Option Diagnostic × Seen :=
  match rule, member with
  | modifiers, m => (modifierFault? [] (m.modifiers), seen)
  | parameters, .method m => (parameterFault? [] m.params, seen)
  | fields, .field f =>
    match seen.lookup f.name.node with
    | some previous => (some (.duplicateField f.name.node f.name.span previous), seen)
    | none => (none, (f.name.node, f.name.span) :: seen)
  | methods, .method m =>
    match seen.lookup m.signature with
    | some previous => (some (.duplicateMethod m.signature m.name.span previous), seen)
    | none => (none, (m.signature, m.name.span) :: seen)
  | initializers, .field f => (f.init.bind (initializerFault? f.type.node), seen)
  | _, _ => (none, seen)

end Rule

abbrev Rules := List (Rule × Seen)

namespace Rules

def fresh : Rules := Rule.all.map (fun r => (r, []))

def accept (rules : Rules) (member : Member) : List (Option Diagnostic × Rule × Seen) :=
  rules.map (fun (r, seen) =>
    let (fault, seen') := r.accept seen member
    (fault, r, seen'))

/-- All faults of the members in order; those of one member in the order of the rules. -/
def faults : Rules → List (Spanned Member) → List Diagnostic
  | _, [] => []
  | rules, m :: rest =>
    let results := rules.accept m.node
    results.filterMap (·.1) ++ faults (results.map (·.2)) rest

def acceptAll (member : Member) : Rules → Except Diagnostic Rules
  | [] => .ok []
  | (r, seen) :: rest =>
    match r.accept seen member with
    | (some d, _) => .error d
    | (none, seen') => (acceptAll member rest).map ((r, seen') :: ·)

/-- The first fault; nothing behind it is looked at. -/
def firstFault? : Rules → List (Spanned Member) → Option Diagnostic
  | _, [] => none
  | rules, m :: rest =>
    match acceptAll m.node rules with
    | .error d => some d
    | .ok rules' => firstFault? rules' rest

end Rules

/-- The faults of a unit: at most one under fail-fast, and otherwise at most one for each member
and rule. -/
def checkUnit (policy : Policy) (u : CompilationUnit) : List Diagnostic :=
  match policy with
  | .failFast => (Rules.fresh.firstFault? u.members).toList
  | .accumulate => Rules.fresh.faults u.members

def Rule.run (rule : Rule) (seen : Seen) : List (Spanned Member) → List (Option Diagnostic)
  | [] => []
  | m :: rest => (rule.accept seen m.node).1 :: rule.run (rule.accept seen m.node).2 rest

end DeclFront
