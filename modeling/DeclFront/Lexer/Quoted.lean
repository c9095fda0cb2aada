import DeclFront.Lexer.Fault

/-! String and character lexemes. Between its quotes a literal is a list of pieces, each a plain
character or a backslash with the character it escapes; a literal never runs past its line. -/

namespace DeclFront

def escapeValue? : Char → Option Char
  | 'n' => some '\n'
  | 't' => some '\t'
  | 'r' => some '\r'
  | '0' => some '\x00'
  | '\\' => some '\\'
  | '\'' => some '\''
  | '"' => some '"'
  | _ => none

inductive Piece
  | plain (c : Char)
  | escaped (c : Char)
deriving DecidableEq, Repr

namespace Piece

def spelling : Piece → List Char
  | plain c => [c]
  | escaped c => ['\\', c]

def value? : Piece → Option Char
  | plain c => some c
  | escaped c => escapeValue? c

end Piece

/-- How the pieces of a literal come to an end. -/
inductive Ending
  | closed
  | cut
  | cutAfterBackslash
deriving DecidableEq, Repr

/-- What belongs to the lexeme after the last piece. -/
def Ending.spelling (quote : Char) : Ending → List Char
  | closed => [quote]
  | cut => []
  | cutAfterBackslash => ['\\']

structure QuotedBody where
  pieces : List Piece
  ending : Ending
  rest : List Char

namespace QuotedBody

def cons (p : Piece) (b : QuotedBody) : QuotedBody := { b with pieces := p :: b.pieces }

/-- Reads pieces up to the closing quote, the end of the line or the end of the text. -/
def scan (quote : Char) : List Char → QuotedBody
  | [] => ⟨[], .cut, []⟩
  | '\n' :: rest => ⟨[], .cut, '\n' :: rest⟩
  | c :: rest =>
    if c == quote then ⟨[], .closed, rest⟩
    else if c == '\\' then
      match rest with
      | [] => ⟨[], .cutAfterBackslash, []⟩
      | '\n' :: rest => ⟨[], .cutAfterBackslash, '\n' :: rest⟩
      | e :: rest => (scan quote rest).cons (.escaped e)
    else (scan quote rest).cons (.plain c)

def lexeme (quote : Char) (b : QuotedBody) : List Char :=
  quote :: b.pieces.flatMap Piece.spelling ++ b.ending.spelling quote

def split (quote : Char) (b : QuotedBody) : Split := ⟨b.lexeme quote, b.rest⟩

theorem scan_append (quote : Char) (cs : List Char) :
    (scan quote cs).lexeme quote ++ (scan quote cs).rest = quote :: cs := by
  fun_induction scan quote cs <;> simp_all [lexeme, cons, Ending.spelling, Piece.spelling]

end QuotedBody

/-- The first escape without meaning, and the bytes before it. -/
def unknownEscape? (before : Nat) : List Piece → Option LexicalFault
  | [] => none
  | p :: pieces =>
    match p with
    | .escaped c =>
      if (escapeValue? c).isNone then some (.unknownEscape c before)
      else unknownEscape? (before + width p.spelling) pieces
    | .plain _ => unknownEscape? (before + width p.spelling) pieces

def scanString (rest : List Char) : Scanned :=
  let body := QuotedBody.scan '"' rest
  let s := body.split '"'
  match body.ending with
  | .closed =>
    match unknownEscape? 1 body.pieces with
    | some fault => s.reject fault
    | none => s.accept .stringLit
  | _ => s.reject .openString

def scanCharacter (rest : List Char) : Scanned :=
  let body := QuotedBody.scan '\'' rest
  let s := body.split '\''
  match body.ending with
  | .closed =>
    match unknownEscape? 1 body.pieces with
    | some fault => s.reject fault
    | none =>
      match body.pieces with
      | [_] => s.accept .charLit
      | [] => s.reject .emptyChar
      | _ => s.reject .crowdedChar
  | _ => s.reject .openChar

theorem ahead_split_scan (quote : Char) (cs : List Char) :
    (Split.mk [quote] cs).Ahead ((QuotedBody.scan quote cs).split quote) := by
  have h := QuotedBody.scan_append quote cs
  simp only [QuotedBody.lexeme, List.cons_append, List.cons.injEq, true_and] at h
  exact ⟨_, rfl, h.symm⟩

theorem toSplit_scanString (cs : List Char) :
    (scanString cs).toSplit = (QuotedBody.scan '"' cs).split '"' := by
  unfold scanString
  simp only
  split
  · split <;> rfl
  · rfl

theorem toSplit_scanCharacter (cs : List Char) :
    (scanCharacter cs).toSplit = (QuotedBody.scan '\'' cs).split '\'' := by
  unfold scanCharacter
  simp only
  split
  · split
    · rfl
    · split <;> rfl
  · rfl

end DeclFront
