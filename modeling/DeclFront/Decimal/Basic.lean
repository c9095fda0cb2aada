import DeclFront.Decimal.Binary

/-! Decimal numbers as they are written: a sign, digits, and a power of ten. -/

namespace DeclFront

structure Decimal where
  negative : Bool
  digits : Nat
  exponent : Int
deriving DecidableEq, Repr

/-- The number that a run of decimal digits denotes. -/
def digitsValue (cs : List Char) : Nat := cs.foldl (fun n c => 10 * n + (c.toNat - '0'.toNat)) 0

def digitCount (n : Nat) : Nat := (Nat.toDigits 10 n).length

def takeSign : List Char → Bool × List Char
  | '+' :: cs => (false, cs)
  | '-' :: cs => (true, cs)
  | cs => (false, cs)

def readInteger? (cs : List Char) : Option Int :=
  let (negative, digits) := takeSign cs
  if digits.isEmpty || !digits.all Char.isDigit then none
  else some (if negative then -(digitsValue digits : Int) else digitsValue digits)

def readExponent? : List Char → Option Int
  | [] => some 0
  | c :: cs => if c == 'e' || c == 'E' then readInteger? cs else none

namespace Decimal

def read? (cs : List Char) : Option Decimal := do
  let (negative, cs) := takeSign cs
  let whole := cs.takeWhile Char.isDigit
  let rest := cs.dropWhile Char.isDigit
  let (fraction, rest) :=
    match rest with
    | '.' :: rest => (rest.takeWhile Char.isDigit, rest.dropWhile Char.isDigit)
    | _ => ([], rest)
  let digits := whole ++ fraction
  if digits.isEmpty then none
  else
    let exponent ← readExponent? rest
    some ⟨negative, digitsValue digits, exponent - fraction.length⟩

/-- Beyond this power of ten every value is infinite, and below its inverse every value is zero,
in both formats. -/
def extreme : Int := 400

/-- The magnitude of a format nearest to the number. No power of ten is formed for numbers that
are far out of range. -/
def magnitude (f : BinaryFormat) (d : Decimal) : Nat :=
  let order := (digitCount d.digits : Int) + d.exponent
  if d.digits = 0 ∨ order < -extreme then 0
  else if extreme < order then f.infinity
  else f.nearest (d.digits * Nat.pow 10 d.exponent.toNat) (Nat.pow 10 (-d.exponent).toNat)

def toFinite? (f : BinaryFormat) (d : Decimal) : Option (Finite f) :=
  if h : d.magnitude f < f.infinity then some ⟨d.negative, d.magnitude f, h⟩ else none

end Decimal

end DeclFront
