import Laconic.Json.Basic
import Laconic.SourceMap.Vlq

/-!
# Source maps

A source map says where the pieces of a text come from.  A segment is a place in
the text with its origin: a source, a place in it and perhaps a name, the source
and the name by their numbers.
-/

namespace Laconic

/-- Where a piece of a text comes from.  Lines and columns count from zero. -/
structure Origin where
  source : Nat
  line : Nat
  column : Nat
  name : Option Nat
deriving DecidableEq, Repr

/-- A place in a text and where it comes from, if that is known. -/
structure Segment where
  line : Nat
  column : Nat
  origin : Option Origin
deriving DecidableEq, Repr

/-- A source map: the name of the text, its sources with their texts, the names,
and the segments. -/
structure SourceMap where
  file : Option String := none
  names : List String := []
  sources : List String := []
  contents : List String := []
  segments : List Segment := []

namespace SourceMap

/-! ## Writing -/

/-- What the numbers of a segment are counted from. -/
structure Base where
  line : Nat := 0
  column : Nat := 0
  source : Nat := 0
  sourceLine : Nat := 0
  sourceColumn : Nat := 0
  name : Nat := 0

def difference (a b : Nat) : String := Vlq.encode ((a : Int) - (b : Int))

def separator (b : Base) (first : Bool) (s : Segment) : String :=
  if b.line < s.line then String.ofList (List.replicate (s.line - b.line) ';')
  else if first then "" else ","

/-- A segment as text, without what separates it. -/
def segmentText (b : Base) (s : Segment) : String :=
  difference s.column (if b.line < s.line then 0 else b.column) ++
    match s.origin with
    | none => ""
    | some o =>
      difference o.source b.source ++ difference o.line b.sourceLine
        ++ difference o.column b.sourceColumn
        ++ (o.name.map fun n => difference n b.name).getD ""

def Base.after (b : Base) (s : Segment) : Base :=
  let b := { b with line := s.line, column := s.column }
  match s.origin with
  | none => b
  | some o =>
    { b with
      source := o.source, sourceLine := o.line, sourceColumn := o.column
      name := o.name.getD b.name }

def segmentsText (b : Base) (first : Bool) : List Segment → String
  | [] => ""
  | s :: rest =>
    separator b first s ++ segmentText b s ++ segmentsText (b.after s) false rest

def toJson (m : SourceMap) : Json :=
  .obj <| [("version", .int 3)] ++ (m.file.map fun f => ("file", Json.str f)).toList
    ++ [("names", .arr (m.names.map .str)), ("sources", .arr (m.sources.map .str))]
    ++ (if m.contents.isEmpty then [] else [("sourcesContent", .arr (m.contents.map .str))])
    ++ [("mappings", .str (segmentsText {} true m.segments))]

end SourceMap

end Laconic
