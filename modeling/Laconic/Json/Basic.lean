import Laconic.Number.Text

/-!
# JSON values and their text

Source maps, option files and name caches are JSON.  The members of an object
keep their order, and whole numbers are kept apart from fractions, since an
option that counts takes only the former.

A value is written on one line (`Json.text`) or indented by two blanks
(`Json.pretty`).
-/

namespace Laconic

inductive Json where
  | null
  | bool (b : Bool)
  /-- A whole number of at most 64 bits, without fraction or exponent. -/
  | int (n : Int)
  /-- Any other number. -/
  | float (x : Float)
  | str (s : String)
  | arr (items : List Json)
  | obj (members : List (String × Json))
deriving Inhabited

namespace Json

/-! ## Writing -/

/-- The hexadecimal digit of a value below sixteen. -/
def hexDigit (n : Nat) : Char := Nat.digitChar n

/-- A character inside a quoted string.  Quotes, backslashes and control
characters are escaped. -/
def quoteChar (c : Char) : List Char :=
  match c with
  | '"' => ['\\', '"']
  | '\\' => ['\\', '\\']
  | '\n' => ['\\', 'n']
  | '\r' => ['\\', 'r']
  | '\t' => ['\\', 't']
  | '\x08' => ['\\', 'b']
  | '\x0c' => ['\\', 'f']
  | c =>
    if c.toNat < 0x20 then
      ['\\', 'u', '0', '0', hexDigit (c.toNat / 16), hexDigit (c.toNat % 16)]
    else [c]

def quote (s : String) : String :=
  "\"" ++ String.ofList (s.toList.flatMap quoteChar) ++ "\""

mutual

def text : Json → String
  | .null => "null"
  | .bool b => if b then "true" else "false"
  | .int n => toString n
  | .float x => Number.text x
  | .str s => quote s
  | .arr items => "[" ++ textItems "" items ++ "]"
  | .obj members => "\x7b" ++ textMembers "" members ++ "\x7d"

/-- The items of an array, each after a separator, the first of which is
given. -/
def textItems (sep : String) : List Json → String
  | [] => ""
  | v :: rest => sep ++ text v ++ textItems "," rest

/-- The members of an object, each after a separator, the first of which is
given. -/
def textMembers (sep : String) : List (String × Json) → String
  | [] => ""
  | (key, v) :: rest => sep ++ quote key ++ ":" ++ text v ++ textMembers "," rest

end

mutual

/-- A value over several lines, the first of which stands after `margin`. -/
def prettyAt (margin : String) : Json → String
  | .arr [] => "[]"
  | .arr items =>
    "[\n" ++ prettyItems (margin ++ "  ") items ++ "\n" ++ margin ++ "]"
  | .obj [] => "\x7b\x7d"
  | .obj members =>
    "\x7b\n" ++ prettyMembers (margin ++ "  ") members ++ "\n" ++ margin ++ "\x7d"
  | v => text v

def prettyItems (margin : String) : List Json → String
  | [] => ""
  | [v] => margin ++ prettyAt margin v
  | v :: rest => margin ++ prettyAt margin v ++ ",\n" ++ prettyItems margin rest

def prettyMembers (margin : String) : List (String × Json) → String
  | [] => ""
  | [(key, v)] => margin ++ quote key ++ ": " ++ prettyAt margin v
  | (key, v) :: rest =>
    margin ++ quote key ++ ": " ++ prettyAt margin v ++ ",\n" ++ prettyMembers margin rest

end

/-- A value over several lines, indented by two blanks a level. -/
def pretty (v : Json) : String := prettyAt "" v

/-! ## Taking values apart -/

/-- The last member of an object with a name. -/
def member? (v : Json) (key : String) : Option Json :=
  match v with
  | .obj members => (members.reverse.find? (·.1 == key)).map (·.2)
  | _ => none

def asBool? : Json → Option Bool
  | .bool b => some b
  | _ => none

def asString? : Json → Option String
  | .str s => some s
  | _ => none

def asNat? : Json → Option Nat
  | .int n => if 0 ≤ n then some n.toNat else none
  | _ => none

def asArray? : Json → Option (List Json)
  | .arr items => some items
  | _ => none

def asStrings? (v : Json) : Option (List String) := v.asArray?.bind (·.mapM asString?)

def orNull? {α : Type} (read : Json → Option α) : Json → Option (Option α)
  | .null => some none
  | v => (read v).map some

end Json

end Laconic
