import Laconic.Json.Record
import Laconic.Output.Spelling

/-!
# Options of writing
-/

namespace Laconic

def CommentFilter.ofJson? : Json → Option CommentFilter
  | .str "none" => some .nothing
  | .str "some" => some .notices
  | .str "all" => some .everything
  | _ => none

/-- Reads a whole number of at most 32 bits. -/
def Json.asNat32? (v : Json) : Option Nat := v.asNat?.filter (· < twoPow 32)

def OutputOptions.ofJson? : Json → Option OutputOptions :=
  Json.readRecord true [
    Json.flag "beautify" fun o v => { o with beautify := v },
    Json.field "indent_level" Json.asNat? fun o v => { o with indentLevel := v },
    Json.field "comments" CommentFilter.ofJson? fun o v => { o with comments := v },
    Json.field "ecma" Json.asNat32? fun o v => { o with ecma := v },
    Json.field "max_line_len" Json.asNat? fun o v => { o with maxLineLen := v },
    Json.flag "ascii_only" fun o v => { o with asciiOnly := v },
    Json.flag "inline_script" fun o v => { o with inlineScript := v },
    Json.flag "quote_keys" fun o v => { o with quoteKeys := v },
    Json.flag "semicolons" fun o v => { o with semicolons := v },
    Json.field "preamble" (Json.orNull? Json.asString?) fun o v => { o with preamble := v },
    Json.flag "shebang" fun o v => { o with shebang := v },
    Json.flag "wrap_iife" fun o v => { o with wrapIife := v }] {}

end Laconic
