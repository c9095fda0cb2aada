import DeclFront.Fallible
import DeclFront.Grammar.TypeGrammar
import DeclFront.Tree.Literal

/-! A cursor over a list of tokens. Looking past the end shows the end mark; the position may
stand one behind the list once a made-up end mark has been handed out. -/

namespace DeclFront

structure TokenStream where
  tokens : List Token
  pos : Nat
  restarted : Bool

namespace TokenStream

def ofTokens (tokens : List Token) : TokenStream := ⟨tokens, 0, false⟩

def endMark (s : TokenStream) : Token :=
  match s.tokens.getLast? with
  | some t => if t.isEnd then t else .endAt t.span.stop
  | none => .endAt 0

def peekNth (n : Nat) (s : TokenStream) : Token := (s.tokens[s.pos + n]?).getD s.endMark

def peek (s : TokenStream) : Token := s.peekNth 0

def atEnd (s : TokenStream) : Bool := s.peek.isEnd

def startsType (s : TokenStream) : Bool := s.peek.kind.startsType

def currentSpan (s : TokenStream) : Span := s.peek.span

/-- The span of the token before the cursor, or the start of the text. -/
def previousSpan (s : TokenStream) : Span :=
  match s.pos with
  | 0 => .point 0
  | n + 1 => ((s.tokens[n]?).map (·.span)).getD (.point 0)

/-- A step over a stream. What was consumed before a failure stays consumed. -/
abbrev Step (α : Type) := ExceptT Diagnostic (StateM TokenStream) α

def advance : Step Token := do
  let s ← get
  unless s.atEnd do
    set { s with pos := s.pos + 1 }
  return s.peek

def checkpoint : Step Nat := do
  return (← get).pos

/-- Goes back to a checkpoint, but never behind the last token. -/
def rewind (checkpoint : Nat) : Step Unit :=
  modify (fun s => { s with pos := min checkpoint s.tokens.length })

/-- Goes back to the first token. This works only once. -/
def restart : Step Unit := do
  let s ← get
  if s.restarted then throw (.alreadyRestarted s.currentSpan)
  set { s with pos := 0, restarted := true }

/-- How many tokens the stream hands out, an end mark included. -/
def supply (s : TokenStream) : Nat :=
  if s.tokens.getLast?.any Token.isEnd then s.tokens.length else s.tokens.length + 1

/-- Hands out the current token, the last end mark included, and then fails. -/
def draw : Step Token := do
  let s ← get
  if s.supply ≤ s.pos then throw (.unexpectedEnd "another token" s.endMark.span.stop)
  set { s with pos := s.pos + 1 }
  return s.peek

def drainUntil (stop : Token → Step Bool) : Step (List Token) := do
  let s ← get
  Fallible.drainUntil draw stop (s.supply - s.pos + 1)

def takeWhileUpTo (p : TokenKind → Except Diagnostic Bool) : Nat → Step (List Token)
  | 0 => pure []
  | limit + 1 => do
    let s ← get
    if s.atEnd then return []
    if ← liftExcept (p s.peek.kind) then
      let t ← advance
      let more ← takeWhileUpTo p limit
      return t :: more
    else return []
where
  liftExcept (r : Except Diagnostic Bool) : Step Bool := ExceptT.mk (pure r)

def takeWhile (p : TokenKind → Except Diagnostic Bool) : Step (List Token) := do
  let s ← get
  takeWhileUpTo p (s.tokens.length - s.pos)

def ahead (s : TokenStream) : List Token × Token :=
  let rest := s.tokens.drop s.pos
  (rest.takeWhile (fun t => !t.isEnd), (rest.find? Token.isEnd).getD s.endMark)

/-- Runs a production at the cursor. The cursor ends up where the production stopped. -/
def reading {α : Type} (read : Token → (ts : List Token) → Reading α ts) : Step α := do
  let s ← get
  let (ts, eof) := s.ahead
  match read eof ts with
  | .ok r =>
    set { s with pos := s.pos + (ts.length - r.rest.length) }
    return r.value
  | .error stop =>
    set { s with pos := s.pos + (ts.length - stop.left) }
    throw stop.diagnostic

def name : Step (Spanned Name) := reading readName

/-- Reads a type at the cursor, or goes back to where it started. -/
def type : Step (Spanned TypeNode) := do
  let start ← checkpoint
  tryCatch (reading readType) (fun d => do
    rewind start
    throw d)

end TokenStream

end DeclFront
