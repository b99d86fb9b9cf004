import Laconic.CommandLine.Arguments
import Laconic.CommandLine.Host
import Laconic.Minify
import Laconic.Text.Pattern

/-!
# The command

The options of a run are those of a file, if one is given, with the arguments on
top of them.  Warnings go to the standard error, and so does the reason if the
command fails.
-/

namespace Laconic.CommandLine

instance : PatternEngine where
  compile? text := (Pattern.parse? text).map Pattern.isFoundIn

/-! ## Failures -/

inductive Failure where
  | cannotRead (path : String) (fault : FileFault)
  | cannotWrite (path : String) (fault : FileFault)
  | cannotReadInput (fault : FileFault)
  | badConfig (path : String)
  | badNameCache (path : String)
  /-- A setting that needs a source map was given without one. -/
  | noSourceMap
  | minification (error : Error)

namespace Failure

def message : Failure → String
  | .cannotRead path _ => "cannot read " ++ path
  | .cannotWrite path _ => "cannot write " ++ path
  | .cannotReadInput _ => "cannot read stdin"
  | .badConfig path => "failed to parse " ++ path
  | .badNameCache path => "failed to parse name cache " ++ path
  | .noSourceMap => "--in-source-map and --source-map-include-sources need --source-map"
  | .minification _ => "minification failed"

/-- The wording of what is behind a failure. -/
def cause? : Failure → Option String
  | .cannotRead _ fault | .cannotWrite _ fault | .cannotReadInput fault => some fault.message
  | .badConfig _ => some "not a record of options"
  | .badNameCache _ => some "not a record of names"
  | .noSourceMap => none
  | .minification error => some error.text

def text (f : Failure) : String :=
  let cause := match f.cause? with
    | none => ""
    | some cause => "\n\nCaused by:\n    " ++ "\n    ".intercalate (cause.splitOn "\n")
  "Error: " ++ f.message ++ cause ++ "\n"

end Failure

/-! ## Options -/

variable {m : Type → Type} [Monad m]

def readFile (h : Host m) (path : String) : ExceptT Failure m String :=
  ExceptT.mk do return (← h.read path).mapError (.cannotRead path)

def writeFile (h : Host m) (path text : String) : ExceptT Failure m Unit :=
  ExceptT.mk do return (← h.write path text).mapError (.cannotWrite path)

/-- The options of a file, or the default ones. -/
def configuration (h : Host m) : Option String → ExceptT Failure m MinifyOptions
  | none => return {}
  | some path => do
    match (Json.parse? (← readFile h path)).bind MinifyOptions.ofJson? with
    | some o => return o
    | none => throw (.badConfig path)

/-- The names of earlier runs; a file that is not there has none. -/
def nameCache (h : Host m) (path : String) : ExceptT Failure m NameCache := do
  if !(← h.has path) then return {}
  match (Json.parse? (← readFile h path)).bind NameCache.ofJson? with
  | some cache => return cache
  | none => throw (.badNameCache path)

def fileName (path : String) : String :=
  match ((path.splitOn "/").filter fun part => !part.isEmpty && part != ".").getLast? with
  | some part => if part == ".." then path else part
  | none => path

/-- How names are renamed with the arguments on top. -/
def renameOptions (i : Invocation) (rename : Toggle RenameOptions) : Toggle RenameOptions :=
  let rename := if i.noRename then .off else rename
  if !i.renameProperties then rename
  else
    let r := rename.value?.getD {}
    match r.properties with
    | .off => .on { r with properties := .on {} }
    | .on _ => .on r

/-- How a run writes with the arguments on top. -/
def outputOptions (i : Invocation) (o : OutputOptions) : OutputOptions :=
  { o with
    beautify := o.beautify || i.beautify
    ecma := i.ecma.getD o.ecma
    comments := i.comments.getD o.comments
    preamble := i.preamble.or o.preamble }

def mapOptions (h : Host m) (i : Invocation) (path : String) (map : Toggle SourceMapOptions) :
    ExceptT Failure m SourceMapOptions := do
  let s := map.value?.getD {}
  let s := { s with
    includeSources := s.includeSources || i.includeSources
    filename := s.filename.or (i.output.map fileName)
    url := s.url.or (some (fileName path)) }
  match i.inputMap with
  | none => return s
  | some input => return { s with content := some (← readFile h input) }

def runOptions (h : Host m) (i : Invocation) : ExceptT Failure m MinifyOptions := do
  let o ← configuration h i.config
  let o := { o with
    compress := if i.noCompress then .off else o.compress
    rename := renameOptions i o.rename
    toplevel := o.toplevel || i.toplevel
    ie8 := o.ie8 || i.ie8
    safari10 := o.safari10 || i.safari10
    parse := { o.parse with module := o.parse.module || i.module }
    output := outputOptions i o.output
    warnings := o.warnings || i.warn }
  let o ← match i.sourceMap with
    | some path => pure { o with sourceMap := .on (← mapOptions h i path o.sourceMap) }
    | none => if i.inputMap.isSome || i.includeSources then throw .noSourceMap else pure o
  match i.nameCache with
  | none => return o
  | some path => return { o with cache := some (← nameCache h path) }

/-! ## Running -/

/-- The units of a run: the input files, or the standard input. -/
def readUnits (h : Host m) (i : Invocation) : ExceptT Failure m (List SourceUnit) := do
  if i.inputs.isEmpty then
    let text ← ExceptT.mk do return (← h.input).mapError Failure.cannotReadInput
    return [⟨"stdin", text⟩]
  else i.inputs.mapM fun path => do return ⟨path, ← readFile h path⟩

/-- What the command leaves besides files. -/
structure Outcome where
  status : Nat := 0
  output : String := ""
  errors : String := ""
deriving DecidableEq, Repr

def writeFiles (h : Host m) (i : Invocation) (r : Minified) : ExceptT Failure m Unit := do
  if let some path := i.output then writeFile h path r.code
  if let (some path, some map) := (i.sourceMap, r.map) then writeFile h path map.toJson.text
  if let (some path, some cache) := (i.nameCache, r.cache) then
    writeFile h path cache.toJson.pretty

/-- Runs with the arguments that were read. -/
def invoke (h : Host m) (i : Invocation) : m Outcome := do
  let ready : Except Failure (MinifyOptions × List SourceUnit) ← ExceptT.run do
    let o ← runOptions h i
    return (o, ← readUnits h i)
  match ready with
  | .error f => return { status := 1, errors := f.text }
  | .ok (o, units) =>
    let (warnings, result) := minify o units
    let notes := String.join (warnings.map fun w => w.text ++ "\n")
    match result with
    | .error e => return { status := 1, errors := notes ++ (Failure.minification e).text }
    | .ok r =>
      let output := if i.output.isSome then "" else r.code ++ "\n"
      match ← (writeFiles h i r).run with
      | .error f => return { status := 1, output, errors := notes ++ f.text }
      | .ok () => return { output, errors := notes }

def usage : String := "Usage: squash [OPTIONS] [INPUTS]...\n"

def run (h : Host m) (arguments : List String) : m Outcome :=
  match readArguments {} arguments with
  | .run i => invoke h i
  | .version => return { output := "squash 0.1.0\n" }
  | .help => return { output := usage }
  | .misuse => return { status := 2, errors := usage }

end Laconic.CommandLine
