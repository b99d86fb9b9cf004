import Laconic.Options.Toggle

/-!
# Options of renaming
-/

namespace Laconic

/-- How patterns are read.  A text is refused, or it says in which names the pattern is
found. -/
class PatternEngine where
  compile? : String → Option (String → Bool)

structure PropertyOptions where
  /-- A pattern that is found in their names. -/
  pattern : Option String := none
  /-- Names that are kept. -/
  reserved : List String := []
  /-- Keep names that stand in quotes somewhere. -/
  keepQuoted : Bool := false
  /-- Rename properties of the language and its usual environment too. -/
  builtins : Bool := false

structure RenameOptions where
  /-- Names that are kept and not given to others. -/
  reserved : List String := []
  /-- Rename the variables of the outermost scope too. -/
  toplevel : Bool := false
  /-- Rename in scopes that use `eval` or `with` too. -/
  eval : Bool := false
  keepFunctionNames : Bool := false
  keepClassNames : Bool := false
  ie8 : Bool := false
  /-- Give no variable of a block the name of one of the function around it. -/
  safari10 : Bool := false
  properties : Toggle PropertyOptions := .off

def PropertyOptions.ofJson? : Json → Option PropertyOptions :=
  Json.readRecord true [
    Json.field "regex" (Json.orNull? Json.asString?) fun o v => { o with pattern := v },
    Json.field "reserved" Json.asStrings? fun o v => { o with reserved := v },
    Json.flag "keep_quoted" fun o v => { o with keepQuoted := v },
    Json.flag "builtins" fun o v => { o with builtins := v }] {}

def RenameOptions.ofJson? : Json → Option RenameOptions :=
  Json.readRecord true [
    Json.field "reserved" Json.asStrings? fun o v => { o with reserved := v },
    Json.flag "toplevel" fun o v => { o with toplevel := v },
    Json.flag "eval" fun o v => { o with eval := v },
    Json.flag "keep_fnames" fun o v => { o with keepFunctionNames := v },
    Json.flag "keep_classnames" fun o v => { o with keepClassNames := v },
    Json.flag "ie8" fun o v => { o with ie8 := v },
    Json.flag "safari10" fun o v => { o with safari10 := v },
    Json.field "properties" (Toggle.ofJson? {} PropertyOptions.ofJson?) fun o v =>
      { o with properties := v }] {}

end Laconic
