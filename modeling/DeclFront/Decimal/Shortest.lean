import DeclFront.Decimal.Basic

/-! The fewest decimal digits that read back as a given binary value. -/

namespace DeclFront

/-- A positive value and the ends of the interval of all numbers that round to it, as numerators
over a common denominator. -/
structure Rounding where
  low : Nat
  value : Nat
  high : Nat
  den : Nat
  closed : Bool

namespace Rounding

def contains (r : Rounding) (n : Nat) : Bool :=
  if r.closed then r.low ≤ n && n ≤ r.high else r.low < n && n < r.high

def scale (r : Rounding) (unit : Int) : Rounding :=
  let up := Nat.pow 10 (-unit).toNat
  ⟨r.low * up, r.value * up, r.high * up, r.den * Nat.pow 10 unit.toNat, r.closed⟩

/-- The neighbour of the value among the whole units that lies in the interval; of two such the
nearer one, and the larger one in the middle. -/
def whole? (r : Rounding) : Option Nat :=
  let down := r.value / r.den
  let below := r.contains (down * r.den)
  let above := r.contains ((down + 1) * r.den)
  if below && above then
    some (if r.value - down * r.den < (down + 1) * r.den - r.value then down else down + 1)
  else if below then some down
  else if above then some (down + 1)
  else none

def order (r : Rounding) : Int :=
  if r.den ≤ r.value then (digitCount (r.value / r.den) : Int) - 1
  else -(digitCount ((r.den - 1) / r.value) : Int)

def shortest (r : Rounding) : Nat × Int :=
  let attempt := fun k : Nat =>
    let unit := r.order - k
    (r.scale unit).whole?.map (fun n => (n, unit))
  ((List.range 17).findSome? attempt).getD (r.value / r.den, 0)

end Rounding

/-- The interval around a positive value. It is narrower below a power of two. -/
def Finite.rounding {f : BinaryFormat} (x : Finite f) : Rounding :=
  let m := 4 * x.significand
  let below := if x.magnitude % f.hidden = 0 ∧ f.hidden < x.magnitude then 1 else 2
  let e := x.exponent - 2
  let up := Nat.pow 2 e.toNat
  ⟨(m - below) * up, m * up, (m + 2) * up, Nat.pow 2 (-e).toNat, x.significand % 2 == 0⟩

def Finite.shortest {f : BinaryFormat} (x : Finite f) : List Char × Int :=
  let (n, unit) := x.rounding.shortest
  let digits := Nat.toDigits 10 n
  let kept := (digits.reverse.dropWhile (· == '0')).reverse
  (kept, unit + (digits.length - 1))

end DeclFront
