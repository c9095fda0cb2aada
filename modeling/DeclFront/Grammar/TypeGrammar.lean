import DeclFront.Grammar.Basic

/-! Reading types: a primitive type or a name with optional type arguments, and then any number
of dimensions. Type arguments and bounds are reference types. -/

namespace DeclFront

/-- Wraps a type into as many arrays as there are pairs of brackets. -/
def arraySuffix (eof : Token) (t : Spanned TypeNode) :
    List Token → Except Stop (Spanned TypeNode × List Token)
  | [] => .ok (t, [])
  | [l] =>
    if l.isPunct .leftBracket then .error (.before [] (.illegalToken eof "']'"))
    else .ok (t, [l])
  | l :: r :: rest =>
    if l.isPunct .leftBracket then
      if r.isPunct .rightBracket then
        arraySuffix eof ⟨.array t.node t.span, t.span.merge r.span⟩ rest
      else .error (.before (r :: rest) (.illegalToken r "']'"))
    else .ok (t, l :: r :: rest)

theorem arraySuffix_le {eof : Token} {t u : Spanned TypeNode} {ts rest : List Token}
    (h : arraySuffix eof t ts = .ok (u, rest)) : rest.length ≤ ts.length := by
  fun_induction arraySuffix eof t ts with
  | case1 | case3 | case6 => cases h; exact Nat.le_refl _
  | case2 | case5 => cases h
  | case4 t l r rest _ _ ih =>
    have := ih h
    simp only [List.length_cons]
    omega

def boundAt? (ts : List Token) : Option Bound :=
  match ts.head?.map Token.kind with
  | some (.keyword (.bound b)) => some b
  | _ => none

def primitiveArgumentHint (first : Token) : String :=
  "Type arguments cannot be primitive; use a wrapper type instead of '" ++ first.text ++ "'"

mutual

/-- Reads one type. A failure stops at the token that does not fit. -/
def readType (eof : Token) (ts : List Token) : Reading (Spanned TypeNode) ts :=
  match readBase eof ts with
  | .error stop => .error stop
  | .ok base =>
    match h : arraySuffix eof base.value base.rest with
    | .error stop => .error stop
    | .ok (t, rest) => .ok ⟨t, rest, Nat.lt_of_le_of_lt (arraySuffix_le h) base.shorter⟩
termination_by (ts.length, 1)

def readBase (eof : Token) (ts : List Token) : Reading (Spanned TypeNode) ts :=
  match (current eof ts).kind.primitive? with
  | some p => do
    let t ← readKind (.keyword (.primitive p)) "type" eof ts
    return t.map (fun t => ⟨.primitive p, t.span⟩)
  | none =>
    if (current eof ts).kind = .ident then do
      let name ← readName eof ts
      if atPunct .leftAngle name.rest then
        let args ← readArgs eof (name.rest.drop 1)
        let close ← readPunct .rightAngle eof args.rest
        return (name.andThen (args.andThen close).behindHead).map (fun close =>
          ⟨.parameterized name.value.node args.value, name.value.span.merge close⟩)
      else return name.map (fun n => ⟨.reference n.node, n.span⟩)
    else .error (.before ts (.illegalToken (current eof ts) "type"))
termination_by (ts.length, 0)
decreasing_by
  have := name.shorter
  exact Prod.Lex.left _ _ (by simp only [List.length_drop]; omega)

def readArgs (eof : Token) (ts : List Token) : Reading (List TypeArg) ts := do
  let arg ← readArg eof ts
  if atPunct .comma arg.rest then
    let more ← readArgs eof (arg.rest.drop 1)
    return (arg.andThen more.behindHead).map (arg.value :: ·)
  else return arg.map ([·])
termination_by (ts.length, 4)
decreasing_by
  · exact Prod.Lex.right _ (by decide)
  · have := arg.shorter
    exact Prod.Lex.left _ _ (by simp only [List.length_drop]; omega)

def readArg (eof : Token) (ts : List Token) : Reading TypeArg ts :=
  match ts with
  | [] => do
    let t ← readReference eof []
    return t.map (fun t => .type t.node t.span)
  | q :: after =>
    if q.isPunct .question then
      match boundAt? after with
      | some b => do
        let t ← readReference eof (after.drop 1)
        return (t.behindHead.behind q).map (fun t =>
          .bounded b t.node t.span (q.span.merge t.span))
      | none => .ok ((Parsed.head q after).map (fun q => .wildcard q.span))
    else do
      let t ← readReference eof (q :: after)
      return t.map (fun t => .type t.node t.span)
termination_by (ts.length, 3)
decreasing_by
  · exact Prod.Lex.right _ (by decide)
  · exact Prod.Lex.left _ _ (by simp only [List.length_drop, List.length_cons]; omega)
  · exact Prod.Lex.right _ (by decide)

def readReference (eof : Token) (ts : List Token) : Reading (Spanned TypeNode) ts := do
  let t ← readType eof ts
  if t.value.node.isPrimitive then
    let first := current eof ts
    throw (.before t.rest ((Diagnostic.illegalToken first "reference type").withHint
      (primitiveArgumentHint first)))
  else return t
termination_by (ts.length, 2)

end

/-- Reads one type. A failure goes back to where the type starts. -/
def resolveType (eof : Token) (ts : List Token) : Reading (Spanned TypeNode) ts :=
  (readType eof ts).mapError (fun stop => .before ts stop.diagnostic)

end DeclFront
