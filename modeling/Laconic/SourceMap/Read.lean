import Laconic.Json.Read
import Laconic.Json.Record
import Laconic.SourceMap.Basic

/-!
# Reading source maps
-/

namespace Laconic.SourceMap

/-! ## Segments -/

/-- A number in 32 bits. -/
def wrap32 (z : Int) : Nat := (z % (twoPow 32 : Nat)).toNat

/-- A number that a difference leads to, if it is not negative. -/
def forward (a : Nat) (d : Int) : Except MapFault Nat :=
  if (a : Int) + d < 0 then .error (.badSegmentSize 0) else .ok (wrap32 (a + d))

def sourceNumber (count a : Nat) (d : Int) : Except MapFault Nat :=
  if (a : Int) + d < 0 || (count : Int) ≤ a + d then .error (.badSourceReference a)
  else .ok (wrap32 (a + d))

def nameNumber (count a : Nat) (d : Int) : Except MapFault Nat :=
  if wrap32 (a + d) < count then .ok (wrap32 (a + d))
  else .error (.badNameReference (wrap32 (a + d)))

/-- The origin that the numbers of a segment after the first one give. -/
def originOf (sources names : Nat) (b : Base) : List Int → Except MapFault (Option Origin)
  | [] => .ok none
  | [source, line, column] => do
    let source ← sourceNumber sources b.source source
    let line ← forward b.sourceLine line
    let column ← forward b.sourceColumn column
    return some ⟨source, line, column, none⟩
  | [source, line, column, name] => do
    let source ← sourceNumber sources b.source source
    let line ← forward b.sourceLine line
    let column ← forward b.sourceColumn column
    let name ← nameNumber names b.name name
    return some ⟨source, line, column, some name⟩
  | numbers => .error (.badSegmentSize (numbers.length + 1))

def readSegment (sources names : Nat) (b : Base) (text : String) :
    Except MapFault (Option Segment) := do
  match ← Vlq.decode text with
  | [] => return none
  | column :: rest =>
    let column ← forward b.column column
    return some ⟨b.line, column, ← originOf sources names b rest⟩

def readLine (sources names : Nat) : Base → List String → Except MapFault (List Segment × Base)
  | b, [] => .ok ([], b)
  | b, text :: rest => do
    match ← readSegment sources names b text with
    | none => readLine sources names b rest
    | some s =>
      let (segments, b) ← readLine sources names (b.after s) rest
      return (s :: segments, b)

def readLines (sources names : Nat) : Base → List String → Except MapFault (List Segment)
  | _, [] => .ok []
  | b, text :: rest => do
    let (segments, b) ← readLine sources names { b with column := 0 } (text.splitOn ",")
    return segments ++ (← readLines sources names { b with line := b.line + 1 } rest)

/-! ## Maps -/

/-- The members of a source map as they stand in JSON. -/
structure Members where
  version : Option Nat := none
  mappings : Option String := none
  sources : Option (List String) := none
  names : List String := []

/-- Reads the members of a source map.  Those that are not needed have to be of
the right kind all the same. -/
def Members.ofJson? : Json → Option Members
  | .obj members => Json.readRecord false [
      Json.field "version" Json.asNat? fun m v => { m with version := some v },
      Json.field "file" (Json.orNull? Json.asString?) fun m _ => m,
      Json.field "mappings" Json.asString? fun m v => { m with mappings := some v },
      Json.field "sourceRoot" (Json.orNull? Json.asString?) fun m _ => m,
      Json.field "sources" Json.asStrings? fun m v => { m with sources := some v },
      Json.field "sourcesContent" (Json.orNull? texts?) fun m _ => m,
      Json.field "names" Json.asStrings? fun m v => { m with names := v },
      Json.field "debugId" (Json.orNull? Json.asString?) fun m _ => m] {} (.obj members)
  | _ => none
where
  /-- Reads a list of texts, some of which may be missing. -/
  texts? (v : Json) : Option (List (Option String)) :=
    v.asArray?.bind fun vs => vs.mapM (Json.orNull? Json.asString?)

/-- The order of segments by their place. -/
def isBefore (a b : Segment) : Bool :=
  a.line < b.line || (a.line == b.line && a.column ≤ b.column)

/-- Reads a source map; its segments are in the order of their places, those of
the same place in the order of the text. -/
def parse (text : String) : Except MapFault SourceMap := do
  match (Json.parse? text).bind Members.ofJson? with
  | some ⟨some 3, some mappings, some sources, names⟩ =>
    let segments ← readLines sources.length names.length {} (mappings.splitOn ";")
    return { names, sources, segments := segments.mergeSort isBefore }
  | _ => throw .badJson

/-! ## Looking up -/

/-- A place in a source with the name that stands there, if one is known.  Lines
count from one. -/
structure Place where
  source : String
  line : Nat
  column : Nat
  name : Option String
deriving DecidableEq, Repr

/-- Where a place of the text comes from: the origin of the last segment at or
before it on the same line.  Lines count from one, in 32 bits. -/
def find? (m : SourceMap) (line column : Nat) : Option Place := do
  guard (line != 0)
  let before := m.segments.filter fun s => isBefore s ⟨line - 1, column, none⟩
  let s ← before.getLast?
  guard (s.line == line - 1)
  let o ← s.origin
  let source ← m.sources[o.source]?
  return ⟨source, wrap32 (o.line + 1), o.column, o.name.bind fun n => m.names[n]?⟩

end Laconic.SourceMap
