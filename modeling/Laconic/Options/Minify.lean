import Laconic.Options.Compress
import Laconic.Options.Parsing
import Laconic.Options.Rename
import Laconic.Rename.Cache

/-!
# Options of a whole run
-/

namespace Laconic

structure SourceMapOptions where
  /-- The name of the output. -/
  filename : Option String := none
  /-- The source map of the input. -/
  content : Option String := none
  /-- Put the texts of the sources into the map. -/
  includeSources : Bool := false
  /-- Where the map will be found, for a comment at the end of the output. -/
  url : Option String := none

/-- What a run does. -/
structure MinifyOptions where
  parse : ParseOptions := {}
  compress : Toggle CompressOptions := .on {}
  rename : Toggle RenameOptions := .on {}
  output : OutputOptions := {}
  sourceMap : Toggle SourceMapOptions := .off
  /-- Bindings of the outermost scope belong to the program alone. -/
  toplevel : Bool := false
  ie8 : Bool := false
  safari10 : Bool := false
  /-- The names that earlier runs gave. -/
  cache : Option NameCache := none
  warnings : Bool := false
  /-- Report the final program. -/
  keepProgram : Bool := false

def SourceMapOptions.ofJson? : Json → Option SourceMapOptions :=
  Json.readRecord true [
    Json.field "filename" (Json.orNull? Json.asString?) fun o v => { o with filename := v },
    Json.field "content" (Json.orNull? Json.asString?) fun o v => { o with content := v },
    Json.flag "include_sources" fun o v => { o with includeSources := v },
    Json.field "url" (Json.orNull? Json.asString?) fun o v => { o with url := v }] {}

def MinifyOptions.ofJson? : Json → Option MinifyOptions :=
  Json.readRecord true [
    Json.field "parse" ParseOptions.ofJson? fun o v => { o with parse := v },
    Json.field "compress" (Toggle.ofJson? {} CompressOptions.ofJson?) fun o v =>
      { o with compress := v },
    Json.field "mangle" (Toggle.ofJson? {} RenameOptions.ofJson?) fun o v => { o with rename := v },
    Json.field "output" OutputOptions.ofJson? fun o v => { o with output := v },
    { Json.field "source_map" (Toggle.ofJson? {} SourceMapOptions.ofJson?) fun o v =>
        { o with sourceMap := v } with names := ["source_map", "sourceMap"] },
    Json.flag "toplevel" fun o v => { o with toplevel := v },
    Json.flag "ie8" fun o v => { o with ie8 := v },
    Json.flag "safari10" fun o v => { o with safari10 := v },
    Json.field "name_cache" (Json.orNull? NameCache.ofJson?) fun o v => { o with cache := v },
    Json.flag "warnings" fun o v => { o with warnings := v },
    Json.flag "keep_ast" fun o v => { o with keepProgram := v }] {}

end Laconic
