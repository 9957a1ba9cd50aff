/-!
# Source spans

A span is a stretch of source text: a byte range together with the line and
column where it begins. Tokens carry the span they were read from, and a tree
node carries the merge of the spans of its parts.

Line `0` never occurs in a source text, so it marks a span that belongs to no
text at all. Such a span is the unit of `merge`.

Offsets, lines and columns are natural numbers. Words of 64 bits for an offset and
of 32 bits for a line or a column are enough for texts with fewer than `2 ^ 32 - 1`
characters.
-/

namespace Dam

/-- A byte range of the source, with the place where it begins. -/
structure Span where
  /-- Byte offset of the first character. -/
  start : Nat
  /-- Byte offset just past the last character. -/
  stop : Nat
  /-- Line of `start`, counted from 1. -/
  line : Nat
  /-- Column of `start`, counted in characters from 1. -/
  col : Nat
deriving DecidableEq, Repr, Inhabited

namespace Span

/-- The span of nothing: no source text has a line `0`. -/
def synthetic : Span := ⟨0, 0, 0, 0⟩

/-- Whether the span belongs to no source text. -/
def isSynthetic (s : Span) : Bool := s.line == 0

/--
The smallest span over both. The place is that of whichever begins first, the
left one on a tie; a synthetic span contributes nothing.
-/
def merge (a b : Span) : Span :=
  if b.isSynthetic then a
  else if a.isSynthetic then b
  else
    let first := if a.start ≤ b.start then a else b
    { start := min a.start b.start
      stop := max a.stop b.stop
      line := first.line
      col := first.col }

/-- The place of the span, as messages show it: `line:col`. -/
def place (s : Span) : String := toString s.line ++ ":" ++ toString s.col

end Span

end Dam
