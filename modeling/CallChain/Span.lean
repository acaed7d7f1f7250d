/-!
Places in a source text. A span may be inverted or lie outside the text it is used with; nothing here
assumes otherwise.
-/
namespace CallChain

/-- A line, counted from one, and a byte column in it, counted from zero. -/
structure Position where
  line : Nat
  column : Nat
  deriving DecidableEq, Repr, Inhabited

/-- The bytes from `start` up to `stop`, with the positions of both ends. -/
structure Span where
  start : Nat
  stop : Nat
  startPos : Position
  stopPos : Position
  deriving DecidableEq, Repr, Inhabited

namespace Span

/-- Number of bytes; an inverted span has none. -/
def length (s : Span) : Nat := s.stop - s.start

def isEmpty (s : Span) : Bool := s.length == 0

end Span

end CallChain
