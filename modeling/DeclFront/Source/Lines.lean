import DeclFront.Text.Width

/-! Lines and columns of byte offsets. Both are counted from one, and columns count bytes. -/

namespace DeclFront

def newlineStops (offset : Nat) : List Char → List Nat
  | [] => []
  | c :: cs =>
    let next := offset + c.utf8Size
    if c == '\n' then next :: newlineStops next cs else newlineStops next cs

structure LineIndex where
  starts : Array Nat
  length : Nat

/-- What the search for a value among rising ones comes to: the place where it stands, or the place
where it would have to be put in. -/
inductive Lookup
  | found (place : Nat)
  | missing (place : Nat)
deriving DecidableEq, Repr

namespace LineIndex

def ofText (s : String) : LineIndex :=
  ⟨(0 :: newlineStops 0 s.toList).toArray, width s.toList⟩

/-- Halves the lines from `lo` to `hi` until one is left: the last that does not start behind the
offset. -/
def search (starts : Array Nat) (offset lo hi : Nat) : Nat :=
  if hi ≤ lo + 1 then lo
  else
    let mid := (lo + hi) / 2
    if starts.getD mid 0 ≤ offset then search starts offset mid hi
    else search starts offset lo mid
termination_by hi - lo

def lookup (starts : Array Nat) (offset : Nat) : Lookup :=
  let place := search starts offset 0 starts.size
  match starts[place]? with
  | none => .missing place
  | some start =>
    if start = offset then .found place
    else if start < offset then .missing (place + 1)
    else .missing place

/-- The line of an offset, counted from zero. An offset that starts no line would be put in behind
the start of its own. -/
def line (ix : LineIndex) (offset : Nat) : Nat :=
  match lookup ix.starts offset with
  | .found line => line
  | .missing next => next - 1

def position (ix : LineIndex) (offset : Nat) : Nat × Nat :=
  let o := min offset ix.length
  (ix.line o + 1, o - ix.starts.getD (ix.line o) 0 + 1)

end LineIndex

def findNewline? : List Char → Option Nat
  | [] => none
  | c :: cs => if c == '\n' then some 0 else (findNewline? cs).map (c.utf8Size + ·)

def trimReturns (cs : List Char) : List Char := (cs.reverse.dropWhile (· == '\r')).reverse

structure LineInfo where
  line : Nat
  column : Nat
  text : List Char
deriving DecidableEq, Repr

/-- The line and column of an offset, and the text from the start of that line up to the next
newline or the end. Nothing if one of the cuts is inside a character. -/
def lineInfo? (s : String) (offset : Nat) : Option LineInfo := do
  let cs := s.toList
  let o := min offset (width cs)
  let (line, column) := (LineIndex.ofText s).position o
  let start := o - (column - 1)
  let tail ← dropBytes? start cs
  let stop := ((findNewline? tail).map (start + ·)).getD (width cs)
  let text ← slice? start stop cs
  return ⟨line, column, trimReturns text⟩

/-- Lines start and end between characters, so that there always is something. -/
def lineInfo (s : String) (offset : Nat) : LineInfo := (lineInfo? s offset).getD ⟨1, 1, []⟩

end DeclFront
