import DeclFront.Decimal.Notation
import DeclFront.Diagnostic
import DeclFront.Lexer.Number
import DeclFront.Lexer.Quoted

/-! Literal values, how they are read off a token, and how they are written. -/

namespace DeclFront

inductive Literal
  | int (v : Int)
  | long (v : Int)
  | float (v : Finite .single)
  | double (v : Finite .double)
  | char (c : Char)
  | string (s : String)
  | bool (b : Bool)
  | null
deriving DecidableEq

namespace Literal

def text : Literal → String
  | int v => toString v
  | long v => toString v ++ "L"
  | float v => v.write .plain ++ "f"
  | double v => v.write .plain
  | char c => quoteChar c
  | string s => quoteText s
  | bool b => if b then "true" else "false"
  | null => "null"

end Literal

/-- Cuts off the last character if it satisfies the test. -/
def stripLast? (p : Char → Bool) (cs : List Char) : Option (List Char) :=
  if cs.getLast?.any p then some cs.dropLast else none

def withoutUnderscores (cs : List Char) : List Char := cs.filter (· != '_')

/-- A signed run of digits whose value fits a two's complement number of so many bits. -/
def readSigned? (bits : Nat) (cs : List Char) : Option Int :=
  let limit : Int := Nat.pow 2 (bits - 1)
  (readInteger? cs).filter (fun v => decide (-limit ≤ v ∧ v < limit))

def readFinite? (f : BinaryFormat) (cs : List Char) : Option (Finite f) :=
  (Decimal.read? cs).bind (Decimal.toFinite? f)

/-- What stands between the first and the last character, if each of them is one byte. -/
def quotedBody? (cs : List Char) : Option (List Char) :=
  match cs with
  | first :: second :: rest =>
    if first.utf8Size == 1 && (second :: rest).getLast?.any (fun c => c.utf8Size == 1) then
      some (second :: rest).dropLast
    else none
  | _ => none

/-- Replaces every escape by the character it stands for. -/
def unescape? : List Char → Option (List Char)
  | [] => some []
  | c :: cs =>
    if c == '\\' then
      match cs with
      | [] => none
      | e :: cs => do
        let v ← escapeValue? e
        let rest ← unescape? cs
        return v :: rest
    else do
      let rest ← unescape? cs
      return c :: rest

def readQuoted? (text : String) : Option (List Char) := (quotedBody? text.toList).bind unescape?

def readIntLiteral (t : Token) : Except Diagnostic Literal :=
  match stripLast? isLongMark t.text.toList with
  | some digits =>
    match readSigned? 64 (withoutUnderscores digits) with
    | some v => .ok (.long v)
    | none => .error (.literalOutOfRange t.text "long" t.span)
  | none =>
    match readSigned? 32 (withoutUnderscores t.text.toList) with
    | some v => .ok (.int v)
    | none => .error (.literalOutOfRange t.text "int" t.span)

def readFloatLiteral (t : Token) : Except Diagnostic Literal :=
  match stripLast? isFloatMark t.text.toList with
  | some digits =>
    match readFinite? .single (withoutUnderscores digits) with
    | some v => .ok (.float v)
    | none => .error (.literalOutOfRange t.text "float" t.span)
  | none =>
    let digits := (stripLast? isDoubleMark t.text.toList).getD t.text.toList
    match readFinite? .double (withoutUnderscores digits) with
    | some v => .ok (.double v)
    | none => .error (.literalOutOfRange t.text "double" t.span)

/-- The value of a literal token. The token's spelling need not come from a text. -/
def readLiteral (t : Token) : Except Diagnostic Literal :=
  match t.kind with
  | .intLit => readIntLiteral t
  | .floatLit => readFloatLiteral t
  | .charLit =>
    match readQuoted? t.text with
    | some [c] => .ok (.char c)
    | _ => .error (.malformedChar t.span)
  | .stringLit =>
    match readQuoted? t.text with
    | some cs => .ok (.string (String.ofList cs))
    | none => .error (.malformedString t.span)
  | .keyword (.constant (.truth b)) => .ok (.bool b)
  | .keyword (.constant .null) => .ok .null
  | _ => .error (.illegalToken t "literal")

/-- The member of a closed set that a token stands for. -/
def TokenSet.read (α : Type) [TokenSet α] (t : Token) : Except Diagnostic α :=
  match TokenSet.find? α t.kind with
  | some a => .ok a
  | none => .error (.illegalToken t (TokenSet.expected α))

end DeclFront
