/-! Half-open runs of bytes in a source text. The two ends are plain numbers:
a span made by hand may end before it starts, and its length is then zero. -/

namespace DeclFront

structure Span where
  start : Nat
  stop : Nat
deriving DecidableEq, Repr, Inhabited

namespace Span

/-- The empty span at one offset. -/
def point (offset : Nat) : Span := ⟨offset, offset⟩

/-- The least span that covers both. -/
def merge (a b : Span) : Span := ⟨min a.start b.start, max a.stop b.stop⟩

def length (s : Span) : Nat := s.stop - s.start

def isEmpty (s : Span) : Bool := s.length == 0

def shift (offset : Nat) (s : Span) : Span := ⟨s.start + offset, s.stop + offset⟩

@[simp] theorem merge_self (s : Span) : s.merge s = s := by simp [merge]

end Span

/-- A part of the tree together with the span it was read from. -/
structure Spanned (α : Type) where
  node : α
  span : Span
deriving DecidableEq, Repr

def Spanned.map {α β : Type} (f : α → β) (s : Spanned α) : Spanned β := ⟨f s.node, s.span⟩

end DeclFront
