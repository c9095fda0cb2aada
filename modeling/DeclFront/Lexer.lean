import DeclFront.Fallible
import DeclFront.Lexer.Number
import DeclFront.Lexer.Quoted
import DeclFront.Lexer.Trivia

/-! From a text to its tokens. A lexical error is reported once the offending part has been read,
so reading can go on behind it. -/

namespace DeclFront

def isIdentStart (c : Char) : Bool := c.isAlpha || c == '_' || c == '$'

def isIdentPart (c : Char) : Bool := c.isAlphanum || c == '_' || c == '$'

def wordKind (lexeme : List Char) : TokenKind :=
  match Keyword.ofSpelling? (String.ofList lexeme) with
  | some k => .keyword k
  | none => .ident

def scanWord (first : Char) (rest : List Char) : Scanned :=
  let s := (Split.mk [first] rest).run isIdentPart
  s.accept (wordKind s.taken)

def scanMark (first : Char) (rest : List Char) : Scanned :=
  match Punctuation.ofChar? first with
  | some p => (Split.mk [first] rest).accept (.punct p)
  | none => (Split.mk [first] rest).reject (.unexpected first)

/-- Scans one lexeme; its first character decides what it is. -/
def scan (first : Char) (rest : List Char) : Scanned :=
  if isIdentStart first then scanWord first rest
  else if first.isDigit || first == '.' && rest.head?.any Char.isDigit then scanNumber first rest
  else if first == '"' then scanString rest
  else if first == '\'' then scanCharacter rest
  else scanMark first rest

theorem ahead_scan (first : Char) (rest : List Char) :
    (Split.mk [first] rest).Ahead (scan first rest).toSplit := by
  unfold scan
  split
  · exact Split.ahead_run _ _
  split
  · exact ahead_scanNumber _ _
  split
  · next h =>
    rw [toSplit_scanString, eq_of_beq h]
    exact ahead_split_scan _ _
  split
  · next h =>
    rw [toSplit_scanCharacter, eq_of_beq h]
    exact ahead_split_scan _ _
  · unfold scanMark
    split <;> exact .refl _

/-- The text still to be read and the offset of its first byte. -/
structure Cursor where
  offset : Nat
  rest : List Char

namespace Cursor

def ofText (s : String) : Cursor := ⟨0, s.toList⟩

def limit (c : Cursor) : Nat := c.offset + width c.rest

/-- The next token or diagnostic, unless only trivia is left. -/
def next? (c : Cursor) : Option (Except Diagnostic Token × Cursor) :=
  let l := lead c.rest
  let start := c.offset + width l.skipped
  match l.rest with
  | [] => none
  | first :: rest =>
    let s := if l.isOpen then (Split.mk (first :: rest) []).reject .openComment else scan first rest
    some (s.placed start, ⟨start + width s.taken, s.rest⟩)

theorem next?_shorter {c c' : Cursor} {r : Except Diagnostic Token}
    (h : c.next? = some (r, c')) : c'.rest.length < c.rest.length := by
  have hl := congrArg List.length (lead_append c.rest)
  unfold next? at h
  dsimp only at h
  split at h
  · exact absurd h (by simp)
  · next first rest he =>
    rw [he] at hl
    simp only [List.length_append, List.length_cons] at hl
    have hs := (ahead_scan first rest).rest_le
    cases h
    dsimp only
    split
    · simp only [Split.reject, List.length_nil]
      omega
    · dsimp only at hs
      omega

/-- The next token or diagnostic; at the end, and from then on, the end mark. -/
def next (c : Cursor) : Except Diagnostic Token × Cursor :=
  c.next?.getD (.ok (.endAt c.limit), ⟨c.limit, []⟩)

def results (c : Cursor) : List (Except Diagnostic Token) :=
  match _h : c.next? with
  | some (r, c') => r :: results c'
  | none => []
termination_by c.rest.length
decreasing_by exact next?_shorter _h

def readings : Nat → Cursor → List (Except Diagnostic Token)
  | 0, _ => []
  | n + 1, c => c.next.1 :: readings n c.next.2

/-- Only the end mark does not get any further. -/
theorem next_shorter {c c' : Cursor} {r : Except Diagnostic Token} (h : c.next = (r, c'))
    (hr : ∀ t, r = .ok t → t.isEnd = false) : c'.rest.length < c.rest.length := by
  unfold next at h
  cases hn : c.next? with
  | none =>
    rw [hn] at h
    cases h
    cases hr _ rfl
  | some step =>
    rw [hn] at h
    exact next?_shorter (hn.trans (congrArg some h))

/-- Reads up to the end mark. Behind a diagnostic it goes on, and collects tokens and diagnostics
apart. -/
def tokenize (c : Cursor) : List Token × List Diagnostic :=
  match _h : c.next with
  | (.ok t, c') =>
    if _ht : t.isEnd then ([t], [])
    else
      let more := tokenize c'
      (t :: more.1, more.2)
  | (.error d, c') =>
    let more := tokenize c'
    (more.1, d :: more.2)
termination_by c.rest.length
decreasing_by
  · exact next_shorter _h (by rintro _ ⟨⟩; simpa using _ht)
  · exact next_shorter _h nofun

def draw : ExceptT Diagnostic (StateM Cursor) Token := ExceptT.mk next

end Cursor

/-- The tokens of a text without its end mark, and the diagnostics between them. -/
def lexResults (s : String) : List (Except Diagnostic Token) := (Cursor.ofText s).results

def endToken (s : String) : Token := .endAt s.utf8ByteSize

def lex (s : String) : Except (List Diagnostic) (List Token) :=
  match (Cursor.ofText s).tokenize with
  | (tokens, []) => .ok tokens
  | (_, faults) => .error faults

def lexFailFast (s : String) : Except Diagnostic (List Token) :=
  -- Every reading in front of the end mark takes a character, so the limit is never reached.
  let drained := Fallible.drainUntil Cursor.draw (fun t => pure t.isEnd) (s.length + 1)
  (drained.run (Cursor.ofText s)).1

end DeclFront
