import DeclFront.Text.Printable
import DeclFront.Text.Extending

/-! Texts as they are shown to a reader: between quotes, with everything that would not be
visible on its own replaced by an escape. -/

namespace DeclFront

/-- Which quotes have to be escaped. -/
inductive QuoteStyle
  | single
  | double
  | both
deriving DecidableEq, Repr

def QuoteStyle.escapes (style : QuoteStyle) (c : Char) : Bool :=
  match style with
  | single => c == '\''
  | double => c == '"'
  | both => c == '\'' || c == '"'

def hexDigits (n : Nat) : String := String.ofList (Nat.toDigits 16 n)

/-- The escape of a code point by its number, in lower-case hexadecimal. -/
def codeEscape (c : Char) : String := "\\u\x7b" ++ hexDigits c.toNat ++ "\x7d"

def escapeChar (style : QuoteStyle) (c : Char) : String :=
  if c == '\x00' then "\\0"
  else if c == '\t' then "\\t"
  else if c == '\r' then "\\r"
  else if c == '\n' then "\\n"
  else if c == '\\' || style.escapes c then "\\" ++ c.toString
  else if isExtending c || !isPrintable c then codeEscape c
  else c.toString

def quoteText (s : String) : String :=
  "\"" ++ String.join (s.toList.map (escapeChar .double)) ++ "\""

def quoteChar (c : Char) : String := "'" ++ escapeChar .single c ++ "'"

end DeclFront
