/-! Blank characters: those with the White_Space property. -/

namespace DeclFront

/-- The first and last code point of every run of blank characters. -/
def blankRanges : List (Nat × Nat) :=
  [(0x09, 0x0D), (0x20, 0x20), (0x85, 0x85), (0xA0, 0xA0), (0x1680, 0x1680), (0x2000, 0x200A),
    (0x2028, 0x2029), (0x202F, 0x202F), (0x205F, 0x205F), (0x3000, 0x3000)]

def inRanges (ranges : List (Nat × Nat)) (code : Nat) : Bool :=
  ranges.any (fun r => r.1 ≤ code && code ≤ r.2)

def isBlank (c : Char) : Bool := inRanges blankRanges c.toNat

end DeclFront
