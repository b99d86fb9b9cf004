import Laconic.Compress.Pass
import Laconic.Grammar.Program
import Laconic.Options.Minify
import Laconic.Rename.Properties
import Laconic.Rename.Variables
import Laconic.SourceMap.Build

/-!
# Whole runs

A run reads the units of a program one after the other, compresses the program,
gives its names new ones and prints it, each of these as far as the options say.
-/

namespace Laconic

/-- A text of a program with its name. -/
structure SourceUnit where
  name : String
  text : String

/-- What a run gives if nothing goes wrong, apart from warnings. -/
structure Minified where
  code : String
  map : Option SourceMap := none
  program : Option Program := none
  /-- The names for later runs, if names of earlier runs were given. -/
  cache : Option NameCache := none

variable [PatternEngine]

namespace Minify

def readUnits (o : ParseOptions) : Nat → Program → List SourceUnit → Except Error Program
  | _, p, [] => .ok p
  | n, p, u :: rest => do
    let unit ← (parseFile o n u.text).mapError (·.inFile u.name)
    readUnits o (n + 1) (p.append { unit with files := unit.files ++ [u.name] }) rest

def compressStage (o : MinifyOptions) (p : Program) : Compressed :=
  match o.compress.value? with
  | none => ⟨p, [], none⟩
  | some c => compress { c with toplevel := c.toplevel || o.toplevel } o.ie8 p

/-- Gives names new ones as far as the options say, and the names for later
runs. -/
def renameStage (o : MinifyOptions) (p : Program) : Except Error (Program × Option NameCache) :=
  match o.rename.value? with
  | none => return (p, none)
  | some r => do
    let r := { r with
      toplevel := r.toplevel || o.toplevel
      ie8 := r.ie8 || o.ie8
      safari10 := r.safari10 || o.safari10 }
    let cache := o.cache.getD {}
    let (p, tree) ← resolve o.ie8 p
    let (p, _, vars) := renameVariables r p tree cache.vars
    match r.properties.value? with
    | none => return (p, o.cache.map fun _ => { cache with vars })
    | some po =>
      let (p, props) ← renameProperties po p cache.props
      return (p, o.cache.map fun _ => { vars, props })

def mapStage (o : OutputOptions) (m : SourceMapOptions) (units : List SourceUnit) (p : Program) :
    Except Error SourceMap := do
  let input ← match m.content with
    | none => pure none
    | some text => (SourceMap.parse text).mapError Error.sourceMap |>.map some
  let contents := if m.includeSources then units.map fun u => (u.name, u.text) else []
  let maker : SourceMap.Maker := { contents, input }
  return maker.make m.filename (mappings o p)

/-- The comment that says where the source map is. -/
def urlComment : Option String → String
  | none => ""
  | some url => "\n//# sourceMappingURL=" ++ url

/-- Prints a program as far as the options say. -/
def outputStage (o : MinifyOptions) (units : List SourceUnit) (p : Program) :
    Except Error (String × Option SourceMap) :=
  match o.sourceMap.value? with
  | none => return (print o.output p, none)
  | some m => do
    let map ← mapStage o.output m units p
    return (print o.output p ++ urlComment m.url, some map)

def finish (o : MinifyOptions) (units : List SourceUnit) (p : Program) :
    Except Error Minified := do
  let (p, cache) ← renameStage o p
  let (code, map) ← outputStage o units p
  return { code, map, program := if o.keepProgram then some p else none, cache }

end Minify

/-- A run: the warnings that were asked for, which are there even if the run
fails later, and the result. -/
def minify (o : MinifyOptions) (units : List SourceUnit) : List Warning × Except Error Minified :=
  match Minify.readUnits o.parse 0 .empty units with
  | .error e => ([], .error e)
  | .ok p =>
    let c := Minify.compressStage o p
    match c.error with
    | some e => ([], .error e)
    | none => (if o.warnings then c.warnings else [], Minify.finish o units c.program)

/-- A run with the names that runs before it gave, and the names for the next
run: those that it gave, or the same ones if it failed or gave none. -/
def minifyNext (cache : NameCache) (o : MinifyOptions) (units : List SourceUnit) :
    (List Warning × Except Error Minified) × NameCache :=
  let result := minify { o with cache := some cache } units
  match result.2 with
  | .ok m => (result, m.cache.getD cache)
  | .error _ => (result, cache)

end Laconic
