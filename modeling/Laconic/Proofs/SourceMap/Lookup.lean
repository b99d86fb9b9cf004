import Laconic.SourceMap.Read

/-!
# Looking up a place in a source map

Segments are sorted by their places when a map is read, and those of the same place stay in
order.  The last segment at or before a place is then the nearest one on its line, if there is
one on its line, and of several at the same place it is the last one of the text.
-/

namespace Laconic

/-- A segment starts on a line, at or before a column.  Lines count from one. -/
def Segment.Reaches (s : Segment) (line column : Nat) : Prop :=
  s.line + 1 = line ∧ s.column ≤ column

instance (s : Segment) (line column : Nat) : Decidable (s.Reaches line column) :=
  inferInstanceAs (Decidable (_ ∧ _))

namespace SourceMap

variable {segments : List Segment} {s : Segment} {line column : Nat}

/-- The place that the origin of a segment stands for. -/
def placeOf? (m : SourceMap) (s : Segment) : Option Place := do
  let o ← s.origin
  let source ← m.sources[o.source]?
  return ⟨source, wrap32 (o.line + 1), o.column, o.name.bind fun n => m.names[n]?⟩

/-- The sorted segments at or before a place. -/
def upTo (segments : List Segment) (line column : Nat) : List Segment :=
  (segments.mergeSort isBefore).filter (isBefore · ⟨line, column, none⟩)

end SourceMap

end Laconic
