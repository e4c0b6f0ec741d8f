import QueryLint.Position

/-!
# Ranges of positions and of bytes

A `Range` goes from one position up to another, which it leaves out. A `Span`
does the same for byte offsets. Ranges built by `Range.between` have their
endpoints in order; a range that came from outside need not.
-/
namespace QueryLint

structure Range where
  start : Position := {}
  stop : Position := {}
  deriving DecidableEq, Repr, Inhabited

namespace Range

/-- The range between two positions, whichever comes first. -/
def between (a b : Position) : Range :=
  if b < a then ⟨b, a⟩ else ⟨a, b⟩

def point (p : Position) : Range := ⟨p, p⟩

def isEmpty (r : Range) : Bool :=
  r.start == r.stop

def cover (r s : Range) : Range :=
  ⟨min r.start s.start, max r.stop s.stop⟩

def overlaps (r s : Range) : Bool :=
  r.start < s.stop && s.start < r.stop

def display (r : Range) : String :=
  r.start.display ++ "-" ++ r.stop.display

theorem between_of_le {a b : Position} (h : a ≤ b) : between a b = ⟨a, b⟩ := by
  unfold between
  rw [if_neg (Position.not_lt.mpr h)]

end Range

structure Span where
  start : Nat := 0
  stop : Nat := 0
  deriving DecidableEq, Repr, Inhabited

namespace Span

def point (offset : Nat) : Span := ⟨offset, offset⟩

def length (s : Span) : Nat := s.stop - s.start

def isEmpty (s : Span) : Bool := s.start == s.stop

def display (s : Span) : String :=
  toString s.start ++ ".." ++ toString s.stop

end Span

end QueryLint
