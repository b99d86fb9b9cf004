/-!
# Positions and spans

A position names a place in one source text three ways at once: by UTF-8
byte offset, by line counted from one, and by column counted in characters
from zero.  A span is a pair of positions in one numbered file.

Nodes that no source text wrote carry the span `Span.nowhere`; it is
recognised by its line, since real lines start at one.
-/

namespace Laconic

/-- A place in a source text. -/
structure Position where
  /-- Number of UTF-8 bytes before the place. -/
  offset : Nat
  /-- Line, counted from one. -/
  line : Nat
  /-- Characters since the start of the line. -/
  column : Nat
deriving DecidableEq, Repr, Inhabited

namespace Position

/-- The first place of every text. -/
def first : Position := ⟨0, 1, 0⟩

/-- The place of nodes that stand in no text. -/
def nowhere : Position := ⟨0, 0, 0⟩

end Position

/-- A stretch of one file, from `start` up to but not including `stop`. -/
structure Span where
  start : Position
  stop : Position
  /-- Index of the file among the inputs. -/
  file : Nat
deriving DecidableEq, Repr, Inhabited

namespace Span

def nowhere : Span := ⟨.nowhere, .nowhere, 0⟩

/-- Whether a span stands in no text. -/
def isNowhere (s : Span) : Bool := s.start.line == 0

/-- The span from the start of `s` to the end of `t`.  A span that stands
nowhere contributes nothing. -/
def upTo (s t : Span) : Span :=
  if s.isNowhere then t
  else { s with stop := if t.isNowhere then s.stop else t.stop }

/-- Whether `inner` lies within `outer`, by file and byte offset. -/
def covers (outer inner : Span) : Bool :=
  outer.file == inner.file
    && outer.start.offset ≤ inner.start.offset
    && inner.stop.offset ≤ outer.stop.offset

end Span

end Laconic
