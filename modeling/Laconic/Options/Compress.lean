import Laconic.Options.Output

/-!
# Options of compression
-/

namespace Laconic

/-- What compression does and what it may assume. -/
structure CompressOptions where
  /-- Write the truth values as `!0` and `!1`, and drop `!!` from conditions. -/
  booleans : Bool := true
  /-- Put the value of a variable that is used once into the next statement. -/
  collapseVars : Bool := true
  /-- Simplify comparisons and their negations. -/
  comparisons : Bool := true
  /-- Turn `if` statements into expressions. -/
  conditionals : Bool := true
  /-- Remove what is never reached. -/
  deadCode : Bool := true
  /-- Remove calls of `console`. -/
  dropConsole : Bool := false
  /-- Remove `debugger` statements. -/
  dropDebugger : Bool := true
  /-- Work out constant expressions. -/
  evaluate : Bool := true
  /-- Merge `if` statements that return. -/
  ifReturn : Bool := true
  /-- How much is inlined: nothing at 0, else functions that are used once. -/
  inline : Nat := 1
  /-- Merge declarations of variables. -/
  joinVars : Bool := true
  keepParams : Bool := true
  keepFunctionNames : Bool := false
  keepClassNames : Bool := false
  /-- Write loops in their shortest form. -/
  loops : Bool := true
  /-- Negate functions that are called at once, if the result is not used. -/
  negateIife : Bool := true
  /-- Write properties with a dot and without quotes. -/
  properties : Bool := true
  /-- Assume that reading a property runs no code. -/
  pureGetters : Bool := false
  pureFunctions : List String := []
  /-- Use the values of variables that have only one. -/
  reduceVars : Bool := true
  /-- Join expressions by commas. -/
  sequences : Bool := true
  /-- Remove expressions that have no effect and whose value is not used. -/
  sideEffects : Bool := true
  /-- Remove clauses of `switch` statements that are never taken. -/
  switches : Bool := true
  /-- Treat the names of the outermost scope like others. -/
  toplevel : Bool := false
  /-- Shorten comparisons of `typeof` with `"undefined"`. -/
  typeofs : Bool := true
  /-- Remove declarations that are not used. -/
  unused : Bool := true
  /-- Assume that methods and `Math` are the usual ones. -/
  builtins : Bool := false
  /-- Allow arithmetic that is exact only up to rounding. -/
  roundedMath : Bool := false
  /-- Values of global names. -/
  globals : List (String × Json) := []
  /-- How often the whole program is compressed at most. -/
  passes : Nat := 2
  /-- How many expressions are joined by commas at most. -/
  sequencesLimit : Nat := 200
  /-- The length of the longest literal that takes the place of several uses of a
  variable. -/
  inlineMaxLength : Nat := 16

/-- Reads a level: a truth value or a small number. -/
def Json.asLevel? : Json → Option Nat
  | .bool b => some (if b then 1 else 0)
  | v => v.asNat?.filter (· < 256)

/-- Reads an object as names with values; a name given again takes the later
value. -/
def Json.asTable? : Json → Option (List (String × Json))
  | .obj members =>
    some (members.foldl (fun table m =>
      if table.any (·.1 == m.1) then table.map fun e => if e.1 == m.1 then m else e
      else table ++ [m]) [])
  | _ => none

def CompressOptions.ofJson? : Json → Option CompressOptions :=
  Json.readRecord true [
    Json.flag "booleans" fun o v => { o with booleans := v },
    Json.flag "collapse_vars" fun o v => { o with collapseVars := v },
    Json.flag "comparisons" fun o v => { o with comparisons := v },
    Json.flag "conditionals" fun o v => { o with conditionals := v },
    Json.flag "dead_code" fun o v => { o with deadCode := v },
    Json.flag "drop_console" fun o v => { o with dropConsole := v },
    Json.flag "drop_debugger" fun o v => { o with dropDebugger := v },
    Json.flag "evaluate" fun o v => { o with evaluate := v },
    Json.flag "if_return" fun o v => { o with ifReturn := v },
    Json.field "inline" Json.asLevel? fun o v => { o with inline := v },
    Json.flag "join_vars" fun o v => { o with joinVars := v },
    Json.flag "keep_fargs" fun o v => { o with keepParams := v },
    Json.flag "keep_fnames" fun o v => { o with keepFunctionNames := v },
    Json.flag "keep_classnames" fun o v => { o with keepClassNames := v },
    Json.flag "loops" fun o v => { o with loops := v },
    Json.flag "negate_iife" fun o v => { o with negateIife := v },
    Json.flag "properties" fun o v => { o with properties := v },
    Json.flag "pure_getters" fun o v => { o with pureGetters := v },
    Json.field "pure_funcs" Json.asStrings? fun o v => { o with pureFunctions := v },
    Json.flag "reduce_vars" fun o v => { o with reduceVars := v },
    Json.flag "sequences" fun o v => { o with sequences := v },
    Json.flag "side_effects" fun o v => { o with sideEffects := v },
    Json.flag "switches" fun o v => { o with switches := v },
    Json.flag "toplevel" fun o v => { o with toplevel := v },
    Json.flag "typeofs" fun o v => { o with typeofs := v },
    Json.flag "unused" fun o v => { o with unused := v },
    Json.flag "unsafe" fun o v => { o with builtins := v },
    Json.flag "unsafe_math" fun o v => { o with roundedMath := v },
    Json.field "global_defs" Json.asTable? fun o v => { o with globals := v },
    Json.field "passes" Json.asNat32? fun o v => { o with passes := v },
    Json.field "sequences_limit" Json.asNat? fun o v => { o with sequencesLimit := v },
    Json.field "reduce_vars_inline_max_len" Json.asNat? fun o v =>
      { o with inlineMaxLength := v }] {}

end Laconic
