/-! Binary floating-point formats. A finite value is held as its sign and the number that its
other bits spell, so that the order of magnitudes is the order of these numbers. -/

namespace DeclFront

structure BinaryFormat where
  precision : Nat
  exponentBits : Nat
deriving DecidableEq, Repr

namespace BinaryFormat

def single : BinaryFormat := ⟨24, 8⟩

def double : BinaryFormat := ⟨53, 11⟩

def hidden (f : BinaryFormat) : Nat := Nat.pow 2 (f.precision - 1)

def leastExponent (f : BinaryFormat) : Int :=
  3 - (Nat.pow 2 (f.exponentBits - 1) : Int) - (f.precision : Int)

/-- The magnitude that stands for infinity; all finite ones are below it. -/
def infinity (f : BinaryFormat) : Nat := (Nat.pow 2 f.exponentBits - 1) * f.hidden

end BinaryFormat

structure Finite (f : BinaryFormat) where
  negative : Bool
  magnitude : Nat
  finite : magnitude < f.infinity
deriving DecidableEq

namespace Finite

variable {f : BinaryFormat}

def bits (x : Finite f) : Nat :=
  (if x.negative then Nat.pow 2 (f.precision - 1 + f.exponentBits) else 0) + x.magnitude

/-- The magnitude is `significand * 2 ^ exponent`. -/
def significand (x : Finite f) : Nat :=
  if x.magnitude < f.hidden then x.magnitude else x.magnitude % f.hidden + f.hidden

def exponent (x : Finite f) : Int :=
  f.leastExponent + ((x.magnitude / f.hidden - 1 : Nat) : Int)

end Finite

def roundHalfEven (num den : Nat) : Nat :=
  let twice := 2 * (num % den)
  if den < twice || twice == den && num / den % 2 == 1 then num / den + 1 else num / den

def floorLog2 (num den : Nat) : Int :=
  let guess : Int := (num.log2 : Int) - (den.log2 : Int)
  if den * Nat.pow 2 guess.toNat ≤ num * Nat.pow 2 (-guess).toNat then guess else guess - 1

/-- The magnitude nearest to a positive quotient, ties to even; it may reach infinity. -/
def BinaryFormat.nearest (f : BinaryFormat) (num den : Nat) : Nat :=
  let e := max (floorLog2 num den - ((f.precision : Int) - 1)) f.leastExponent
  (e - f.leastExponent).toNat * f.hidden +
    roundHalfEven (num * Nat.pow 2 (-e).toNat) (den * Nat.pow 2 e.toNat)

end DeclFront
