import Laconic.Json.Record

/-!
# Options that can be off
-/

namespace Laconic

/-- An option that is off, on with its defaults, or on with a record. -/
inductive Toggle (α : Type) where
  | off
  | on (value : α)

namespace Toggle

def value? {α : Type} : Toggle α → Option α
  | .off => none
  | .on a => some a

def ofJson? {α : Type} (default : α) (read : Json → Option α) : Json → Option (Toggle α)
  | .bool false => some .off
  | .bool true => some (.on default)
  | v => (read v).map .on

end Toggle

end Laconic
