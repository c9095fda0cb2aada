import DeclFront.Decimal.Shortest

/-! How a number is written once its digits are known. -/

namespace DeclFront

structure NumberStyle where
  leastOrder : Int
  orderLimit : Int

/-- Numbers from `0.0001` up to, but not including, `10 ^ 16` have no exponent. -/
def NumberStyle.plain : NumberStyle := ⟨-4, 16⟩

def writeExponential (digits : List Char) (order : Int) : String :=
  let mantissa :=
    match digits with
    | first :: second :: rest => first :: '.' :: second :: rest
    | _ => digits
  String.ofList mantissa ++ "e" ++ toString order

/-- Digits with zeros filled in; there is always a digit behind the point. -/
def writePositional (digits : List Char) (order : Int) : String :=
  if order < 0 then
    "0." ++ String.ofList (List.replicate (-order - 1).toNat '0' ++ digits)
  else
    let places := order.toNat + 1
    let whole := digits.take places ++ List.replicate (places - digits.length) '0'
    let fraction := digits.drop places
    String.ofList (whole ++ '.' :: (if fraction.isEmpty then ['0'] else fraction))

def Finite.write {f : BinaryFormat} (style : NumberStyle) (x : Finite f) : String :=
  let sign := if x.negative then "-" else ""
  if x.magnitude = 0 then sign ++ "0.0"
  else
    let (digits, order) := x.shortest
    sign ++
      if style.leastOrder ≤ order && order < style.orderLimit then writePositional digits order
      else writeExponential digits order

end DeclFront
