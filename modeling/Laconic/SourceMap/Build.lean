import Laconic.Output.Render
import Laconic.SourceMap.Read

/-!
# Making source maps

A map is made from the places of tokens.  If the text that was printed from is
itself the output of some tool, its map leads further back.
-/

namespace Laconic.SourceMap

/-- What a source map is made with: the texts of the sources, and the map of the
text that was printed from. -/
structure Maker where
  contents : List (String × String) := []
  input : Option SourceMap := none

/-- The map so far, its segments with the last one first, and the place of the
last mapping. -/
structure Making where
  map : SourceMap
  last : Option (Nat × Nat) := none

namespace Maker

/-- The text of a source, which is empty if it is not known. -/
def contentOf (k : Maker) (source : String) : String :=
  ((k.contents.reverse.find? (·.1 == source)).map (·.2)).getD ""

/-- Where a mapping leads in the end. -/
def placeOf? (k : Maker) (g : Mapping) : Option Place :=
  match k.input with
  | none => some ⟨g.source, g.sourceLine, g.sourceColumn, g.name⟩
  | some input =>
    (input.find? g.sourceLine g.sourceColumn).map fun p => { p with name := p.name.or g.name }

def withSource (k : Maker) (m : SourceMap) (source : String) : SourceMap × Nat :=
  match m.sources.idxOf? source with
  | some i => (m, i)
  | none =>
    ({ m with sources := m.sources ++ [source], contents := m.contents ++ [k.contentOf source] },
      m.sources.length)

def withName (m : SourceMap) : Option String → SourceMap × Option Nat
  | none => (m, none)
  | some name =>
    match m.names.idxOf? name with
    | some i => (m, some i)
    | none => ({ m with names := m.names ++ [name] }, some m.names.length)

/-- Adds a mapping, unless it has the place of the one before or no place. -/
def add (k : Maker) (s : Making) (g : Mapping) : Making :=
  if s.last == some (g.line, g.column) || g.line == 0 then s
  else
    let last := some (g.line, g.column)
    match k.placeOf? g with
    | none => { s with last }
    | some place =>
      let (m, source) := k.withSource s.map place.source
      let (m, name) := withName m place.name
      let segment : Segment :=
        ⟨g.line - 1, g.column, some ⟨source, place.line - 1, place.column, name⟩⟩
      { map := { m with segments := segment :: m.segments }, last }

def make (k : Maker) (file : Option String) (mappings : List Mapping) : SourceMap :=
  let m := (mappings.foldl k.add { map := { file } }).map
  { m with segments := m.segments.reverse }

end Maker

end Laconic.SourceMap
