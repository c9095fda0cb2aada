import DeclFront.Grammar.TypeGrammar
import DeclFront.Tree.Unit

/-! Reading package clauses, imports and members. Each of them ends with a semicolon, and takes
none before it. -/

namespace DeclFront

/-- Reads the clause whose opening word stands first. -/
def readPackage (eof : Token) (ts : List Token) : Reading (Spanned Name) ts :=
  match ts with
  | [] => .error (.before [] (.illegalToken eof "identifier"))
  | word :: after => do
    let name ← readName eof after
    let close ← readPunct .semicolon eof name.rest
    return ((name.andThen close).behind word).map (fun close =>
      ⟨name.value.node, word.span.merge close⟩)

/-- Reads the star that a dot behind an import's path announces, if there is a dot. -/
def readImportEnd (eof : Token) (ts : List Token) : Reading (Bool × Span) ts := do
  if atPunct .dot ts then
    let star ← readPunct .star eof (ts.drop 1)
    let close ← readPunct .semicolon eof star.rest
    return (star.andThen close).behindHead.map (fun close => (true, close))
  else
    let close ← readPunct .semicolon eof ts
    return close.map (fun close => (false, close))

def readImport (eof : Token) (ts : List Token) : Reading (Spanned Import) ts :=
  match ts with
  | [] => .error (.before [] (.illegalToken eof "identifier"))
  | word :: after => do
    let path ← readName eof after
    let tail ← readImportEnd eof path.rest
    return ((path.andThen tail).behind word).map (fun (wildcard, close) =>
      ⟨⟨path.value.node, wildcard⟩, word.span.merge close⟩)

def takeModifiers : List Token → List (Spanned Modifier) × List Token
  | [] => ([], [])
  | t :: rest =>
    match t.kind.modifier? with
    | some m => (⟨m, t.span⟩ :: (takeModifiers rest).1, (takeModifiers rest).2)
    | none => ([], t :: rest)

theorem takeModifiers_le (ts : List Token) : (takeModifiers ts).2.length ≤ ts.length := by
  fun_induction takeModifiers ts with
  | case1 => simp
  | case2 t rest m _ ih =>
    simp only [List.length_cons]
    omega
  | case3 => simp

def readReturn (eof : Token) (ts : List Token) : Reading (Spanned ReturnType) ts :=
  if (current eof ts).kind = .keyword .void then do
    let t ← readKind (.keyword .void) "type or 'void'" eof ts
    return t.map (fun t => ⟨.void, t.span⟩)
  else if (current eof ts).kind.startsType then do
    let t ← resolveType eof ts
    return t.map (Spanned.map .type)
  else .error (.before ts (.illegalToken (current eof ts) "type or 'void'"))

def readTypedName (eof : Token) (ts : List Token) : Reading (Spanned TypeNode × Spanned String) ts :=
  if (current eof ts).kind = .keyword .void then
    .error (.before ts (.illegalToken (current eof ts) "parameter type"))
  else do
    let type ← resolveType eof ts
    let name ← readIdent eof type.rest
    return (type.andThen name).map (fun name => (type.value, name))

def readParam (eof : Token) (ts : List Token) : Reading (Spanned Param) ts := do
  let start := (current eof ts).span
  if (current eof ts).kind = .keyword (.modifier .final) then
    let p ← readTypedName eof (ts.drop 1)
    return p.behindHead.map (fun (type, name) => ⟨⟨true, type, name⟩, start.merge name.span⟩)
  else
    let p ← readTypedName eof ts
    return p.map (fun (type, name) => ⟨⟨false, type, name⟩, start.merge name.span⟩)

def readParams (eof : Token) (ts : List Token) : Reading (List (Spanned Param)) ts := do
  let param ← readParam eof ts
  if atPunct .comma param.rest then
    let more ← readParams eof (param.rest.drop 1)
    return (param.andThen more.behindHead).map (param.value :: ·)
  else return param.map ([·])
termination_by ts.length
decreasing_by
  have := param.shorter
  simp only [List.length_drop]
  omega

def readParamsEnd (eof : Token) (ts : List Token) : Reading (List (Spanned Param)) ts := do
  if atPunct .rightParen ts then
    let right ← readPunct .rightParen eof ts
    return right.map (fun _ => [])
  else
    let params ← readParams eof ts
    let right ← readPunct .rightParen eof params.rest
    return (params.andThen right).map (fun _ => params.value)

def readMethodEnd (eof : Token) (ts : List Token) : Reading (List (Spanned Param) × Span) ts := do
  let left ← readPunct .leftParen eof ts
  let params ← readParamsEnd eof left.rest
  let close ← readPunct .semicolon eof params.rest
  return (left.andThen (params.andThen close)).map (fun close => (params.value, close))

def readInit (eof : Token) (ts : List Token) : Reading (Spanned Literal) ts :=
  match ts with
  | [] => .error (.before [] (.illegalToken eof "literal"))
  | t :: rest => do
    let value ← (readLiteral t).mapError (.before (t :: rest))
    return (Parsed.head t rest).map (fun t => ⟨value, t.span⟩)

def readFieldEnd (eof : Token) (ts : List Token) :
    Reading (Option (Spanned Literal) × Span) ts := do
  if atPunct .equals ts then
    let init ← readInit eof (ts.drop 1)
    let close ← readPunct .semicolon eof init.rest
    return (init.andThen close).behindHead.map (fun close => (some init.value, close))
  else
    let close ← readPunct .semicolon eof ts
    return close.map (fun close => (none, close))

def voidFieldNote : String := "'void' is only allowed as a method return type"

/-- Reads a member behind its modifiers, and the span of its semicolon. -/
def readMemberBody (modifiers : List (Spanned Modifier)) (eof : Token) (ts : List Token) :
    Reading (Member × Span) ts := do
  let returns ← readReturn eof ts
  let name ← readIdent eof returns.rest
  let start := returns.andThen name
  if atPunct .leftParen name.rest then
    let tail ← readMethodEnd eof name.rest
    return (start.andThen tail).map (fun (params, close) =>
      (.method ⟨modifiers, returns.value, name.value, params⟩, close))
  else
    match returns.value.node with
    | .void =>
      throw (.before name.rest
        ((Diagnostic.illegalToken (current eof name.rest) "'('").withNote voidFieldNote))
    | .type t =>
      let tail ← readFieldEnd eof name.rest
      return (start.andThen tail).map (fun (init, close) =>
        (.field ⟨modifiers, ⟨t, returns.value.span⟩, name.value, init⟩, close))

def readMember (eof : Token) (ts : List Token) : Reading (Spanned Member) ts :=
  match (current eof ts).kind with
  | .keyword (.clause _) => .error (.before ts (.misplacedClause (current eof ts)))
  | _ => do
    let body ← readMemberBody (takeModifiers ts).1 eof (takeModifiers ts).2
    return (body.widen (takeModifiers_le ts)).map (fun (member, close) =>
      ⟨member, (current eof ts).span.merge close⟩)

end DeclFront
