import DeclFront.Diagnostic
import DeclFront.Tree.TypeNode

/-! Reading from the front of a list of tokens. A production takes the tokens before the end mark
and the end mark itself, which it meets when the tokens run out. -/

namespace DeclFront

/-- A value read from the front of a list of tokens, and the shorter list that is left. -/
structure Parsed (α : Type) (ts : List Token) where
  value : α
  rest : List Token
  shorter : rest.length < ts.length

namespace Parsed

variable {α β : Type} {t : Token} {ts : List Token}

def head (t : Token) (ts : List Token) : Parsed Token (t :: ts) := ⟨t, ts, Nat.lt_succ_self _⟩

def map (f : α → β) (p : Parsed α ts) : Parsed β ts := ⟨f p.value, p.rest, p.shorter⟩

def widen {us : List Token} (h : us.length ≤ ts.length) (p : Parsed α us) : Parsed α ts :=
  ⟨p.value, p.rest, Nat.lt_of_lt_of_le p.shorter h⟩

def behind (t : Token) (p : Parsed α ts) : Parsed α (t :: ts) := p.widen (Nat.le_succ _)

def behindHead (p : Parsed α (ts.drop 1)) : Parsed α ts :=
  p.widen (by simp only [List.length_drop]; omega)

def andThen (p : Parsed α ts) (q : Parsed β p.rest) : Parsed β ts :=
  q.widen (Nat.le_of_lt p.shorter)

end Parsed

/-- Why a production failed, and how many tokens it had left where it stopped. -/
structure Stop where
  diagnostic : Diagnostic
  left : Nat

namespace Stop

def before (ts : List Token) (d : Diagnostic) : Stop := ⟨d, ts.length⟩

/-- The tokens in front of which a production stopped that was run on the given ones. -/
def rest (ts : List Token) (s : Stop) : List Token := ts.drop (ts.length - s.left)

end Stop

abbrev Reading (α : Type) (ts : List Token) := Except Stop (Parsed α ts)

def current (eof : Token) (ts : List Token) : Token := ts.headD eof

/-- The tokens before the first end mark, and that mark. Without one, it is made up where the last
token ends. -/
def cutAtEnd (tokens : List Token) : List Token × Token :=
  (tokens.takeWhile (fun t => !t.isEnd),
    (tokens.find? Token.isEnd).getD (.endAt ((tokens.getLast?.map (·.span.stop)).getD 0)))

def readKind (kind : TokenKind) (expected : String) (eof : Token) (ts : List Token) :
    Reading Token ts :=
  match ts with
  | [] => .error (.before [] (.illegalToken eof expected))
  | t :: rest =>
    if t.kind = kind then .ok (.head t rest)
    else .error (.before (t :: rest) (.illegalToken t expected))

def readIdent (eof : Token) (ts : List Token) : Reading (Spanned String) ts := do
  let t ← readKind .ident "identifier" eof ts
  return t.map (fun t => ⟨t.text, t.span⟩)

def readPunct (p : Punctuation) (eof : Token) (ts : List Token) : Reading Span ts := do
  let t ← readKind (.punct p) ("'" ++ p.spelling ++ "'") eof ts
  return t.map Token.span

def atPunct (p : Punctuation) (ts : List Token) : Bool := ts.head?.any (Token.isPunct p)

/-- Further segments of a name. A dot belongs to the name only if an identifier follows it. -/
def dottedTail : List Token → List (Spanned String) × List Token
  | d :: i :: rest =>
    if d.isPunct .dot && i.kind == .ident then
      (⟨i.text, i.span⟩ :: (dottedTail rest).1, (dottedTail rest).2)
    else ([], d :: i :: rest)
  | ts => ([], ts)

theorem dottedTail_le (ts : List Token) : (dottedTail ts).2.length ≤ ts.length := by
  fun_induction dottedTail ts with
  | case1 d i rest _ ih =>
    simp only [List.length_cons]
    omega
  | case2 => simp
  | case3 => simp

def mergeSpans (first : Span) (more : List (Spanned String)) : Span :=
  more.foldl (fun s part => s.merge part.span) first

def readName (eof : Token) (ts : List Token) : Reading (Spanned Name) ts := do
  let first ← readIdent eof ts
  let more := (dottedTail first.rest).1
  return ⟨⟨⟨first.value.node :: more.map (·.node)⟩, mergeSpans first.value.span more⟩,
    (dottedTail first.rest).2, Nat.lt_of_le_of_lt (dottedTail_le first.rest) first.shorter⟩

end DeclFront
