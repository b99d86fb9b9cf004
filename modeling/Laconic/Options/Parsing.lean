import Laconic.Grammar.State
import Laconic.Json.Record

/-!
# Options of reading
-/

namespace Laconic

def ParseOptions.ofJson? : Json → Option ParseOptions :=
  Json.readRecord true [
    Json.flag "module" fun o v => { o with module := v },
    Json.flag "bare_returns" fun o v => { o with bareReturns := v },
    Json.flag "shebang" fun o v => { o with shebang := v }] {}

end Laconic
